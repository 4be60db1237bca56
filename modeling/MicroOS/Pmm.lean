import Mathlib.Tactic

/-!
The physical memory manager: a bitmap with a set bit for every free page, a second
bitmap with a cleared bit for every page of the page table pool, and the functions
of `pmm.c` that hand out and take back pages. Words past the end of a bitmap stand
for the memory behind it.
-/
namespace MicroOS.Pmm

def BITMAP_SIZE : Nat := 32768

/-- The number of pages that a bitmap has bits for. -/
def PAGES : Nat := BITMAP_SIZE * 32

abbrev Bitmap := Nat → BitVec 32

def bitmap_set (map : Bitmap) (bit : Nat) : Bitmap :=
  Function.update map (bit / 32) (map (bit / 32) &&& ~~~(0x80000000#32 >>> (bit % 32)))

def bitmap_clear (map : Bitmap) (bit : Nat) : Bitmap :=
  Function.update map (bit / 32) (map (bit / 32) ||| (0x80000000#32 >>> (bit % 32)))

/-- A cleared bit is one that was set. -/
def bitmap_test (map : Bitmap) (bit : Nat) : Bool := map (bit / 32) &&& (0x80000000#32 >>> (bit % 32)) == 0#32

structure Memory where
  bitmap : Bitmap
  bitmap_pagetable_mask : Bitmap
  free_memory : BitVec 32
  used_memory : BitVec 32

def pmm_usage_use (m : Memory) (ammount : Nat) : Memory :=
  { m with
    free_memory := m.free_memory - BitVec.ofNat 32 (ammount * 0x1000)
    used_memory := m.used_memory + BitVec.ofNat 32 (ammount * 0x1000) }

def pmm_usage_unuse (m : Memory) (ammount : Nat) : Memory :=
  { m with
    free_memory := m.free_memory + BitVec.ofNat 32 (ammount * 0x1000)
    used_memory := m.used_memory - BitVec.ofNat 32 (ammount * 0x1000) }

def is_used (m : Memory) (i : Nat) : Bool := bitmap_test m.bitmap i
def in_pool (m : Memory) (i : Nat) : Bool := bitmap_test m.bitmap_pagetable_mask i

/-- The first of the `n` numbers from `i` on that passes a test. -/
def first_from (test : Nat → Bool) : Nat → Nat → Option Nat
  | _, 0 => none
  | i, n+1 => if test i then some i else first_from test (i+1) n

/-- The loops that set and clear the bits of consecutive pages. -/
def set_range (map : Bitmap) (i : Nat) : Nat → Bitmap
  | 0 => map
  | n+1 => bitmap_set (set_range map i n) (i + n)

def clear_range (map : Bitmap) (i : Nat) : Nat → Bitmap
  | 0 => map
  | n+1 => bitmap_clear (clear_range map i n) (i + n)

/-- The pages `i` to `i + count` become used; their address is returned. -/
def take_pages (m : Memory) (i count : Nat) : Memory × Nat :=
  (pmm_usage_use { m with bitmap := set_range m.bitmap i count } count,i * 0x1000)

/-- `none` when no page is left and the kernel stops. -/
def pmm_alloc (m : Memory) : Option (Memory × Nat) :=
  (first_from (fun i => !is_used m i && !in_pool m i) 0 PAGES).map (fun i => take_pages m i 1)

def pmm_alloc_pagetable (m : Memory) : Option (Memory × Nat) :=
  (first_from (fun i => !is_used m i && in_pool m i) 0 PAGES).map (fun i => take_pages m i 1)

def pmm_mark_used (m : Memory) (page : Nat) : Memory :=
  pmm_usage_use { m with bitmap := bitmap_set m.bitmap (page / 4096) } 1

def pmm_free (m : Memory) (page : Nat) : Memory :=
  pmm_usage_unuse { m with bitmap := bitmap_clear m.bitmap (page / 4096) } 1

/-- The search of `pmm_alloc_range` from the label `retry` on. A used page outside of
    the pool that comes within the run is tried next, also when it lies past the end;
    the loop's bound is looked at only when a page fails the first test. -/
def range_retry (m : Memory) (count : Nat) : Nat → Nat → Option Nat
  | 0, _ => none
  | fuel+1, i =>
    if !is_used m i && !in_pool m i then
      match first_from (fun j => is_used m (i + j) && !in_pool m (i + j)) 0 count with
      | some j => range_retry m count fuel (i + j)
      | none => some i
    else if i + 1 < PAGES then range_retry m count fuel (i + 1)
    else none

/-- NULL is 0, also when page 0 was taken. -/
def pmm_alloc_range (m : Memory) (count : Nat) : Memory × Nat :=
  match range_retry m count (PAGES + 1) 0 with
  | some i => take_pages m i count
  | none => (m,0)

def pmm_free_range (m : Memory) (page count : Nat) : Memory :=
  pmm_usage_unuse { m with bitmap := clear_range m.bitmap (page / 4096) count } count

theorem page_bit {k : Nat} (small : k < 32) : (0x80000000#32 >>> k) = BitVec.twoPow 32 (31 - k) := by
  have all : ∀ k : Fin 32, (0x80000000#32 >>> k.val) = BitVec.twoPow 32 (31 - k.val) := by decide
  exact all ⟨k,small⟩

theorem bitmap_test_eq (map : Bitmap) (bit : Nat) :
    bitmap_test map bit = !(map (bit / 32)).getLsbD (31 - bit % 32) := by
  rw [bitmap_test,page_bit (Nat.mod_lt _ (by decide)),BitVec.and_twoPow]
  have inside : 31 - bit % 32 < 32 := by omega
  cases stands : (map (bit / 32)).getLsbD (31 - bit % 32) with
  | false => simp
  | true =>
    have nonzero : BitVec.twoPow 32 (31 - bit % 32) ≠ 0#32 := by
      intro zero
      have bit := congrArg (fun x => x.getLsbD (31 - bit % 32)) zero
      simp [inside] at bit
    simpa using nonzero

/-- Two bits in one word are different bits of it. -/
theorem other_bit {bit k : Nat} (other : k ≠ bit) (same : k / 32 = bit / 32) : 31 - bit % 32 ≠ 31 - k % 32 := by omega

@[simp] theorem bitmap_test_set (map : Bitmap) (bit k : Nat) :
    bitmap_test (bitmap_set map bit) k = (bitmap_test map k || k == bit) := by
  have small : bit % 32 < 32 := Nat.mod_lt _ (by decide)
  have inside : 31 - k % 32 < 32 := by omega
  rw [bitmap_test_eq,bitmap_test_eq,bitmap_set,page_bit small,Function.update_apply]
  by_cases word : k / 32 = bit / 32
  · rw [if_pos word,← word,BitVec.getLsbD_and,BitVec.getLsbD_not,BitVec.getLsbD_twoPow]
    by_cases here : k = bit
    · subst here
      simp [inside]
    · have apart := other_bit here word
      simp [inside,here,apart]
  · have other : k ≠ bit := fun same => word (by rw [same])
    rw [if_neg word]
    simp [other]

@[simp] theorem bitmap_test_clear (map : Bitmap) (bit k : Nat) :
    bitmap_test (bitmap_clear map bit) k = (bitmap_test map k && k != bit) := by
  have small : bit % 32 < 32 := Nat.mod_lt _ (by decide)
  have inside : 31 - k % 32 < 32 := by omega
  rw [bitmap_test_eq,bitmap_test_eq,bitmap_clear,page_bit small,Function.update_apply]
  by_cases word : k / 32 = bit / 32
  · rw [if_pos word,← word,BitVec.getLsbD_or,BitVec.getLsbD_twoPow]
    by_cases here : k = bit
    · subst here
      simp [inside]
    · have apart := other_bit here word
      simp [here,apart]
  · have other : k ≠ bit := fun same => word (by rw [same])
    rw [if_neg word]
    simp [other]

@[simp] theorem bitmap_test_set_range (map : Bitmap) (i n k : Nat) :
    bitmap_test (set_range map i n) k = (bitmap_test map k || decide (i ≤ k ∧ k < i + n)) := by
  induction n with
  | zero => simp [set_range]
  | succ n ih =>
    rw [set_range,bitmap_test_set,ih,Bool.or_assoc]
    congr 1
    rw [Bool.eq_iff_iff]
    simp only [Bool.or_eq_true,decide_eq_true_eq,beq_iff_eq]
    omega

@[simp] theorem bitmap_test_clear_range (map : Bitmap) (i n k : Nat) :
    bitmap_test (clear_range map i n) k = (bitmap_test map k && !decide (i ≤ k ∧ k < i + n)) := by
  induction n with
  | zero =>
    have none : ¬ (i ≤ k ∧ k < i + 0) := by omega
    rw [clear_range,decide_eq_false none]
    simp
  | succ n ih =>
    rw [clear_range,bitmap_test_clear,ih,Bool.and_assoc]
    congr 1
    rw [Bool.eq_iff_iff]
    simp only [Bool.and_eq_true,Bool.not_eq_true',decide_eq_false_iff_not,bne_iff_ne]
    omega

variable {test : Nat → Bool} {pool : Bool} {r : Memory × Nat}

theorem first_from_some {n i k : Nat} : first_from test i n = some k ↔
    i ≤ k ∧ k < i + n ∧ test k = true ∧ ∀ l, i ≤ l → l < k → test l = false := by
  induction n generalizing i with
  | zero =>
    simp only [first_from,reduceCtorEq,false_iff]
    omega
  | succ n ih =>
    rw [first_from]
    cases here : test i with
    | true =>
      simp only [↓reduceIte,Option.some.injEq]
      constructor
      · rintro rfl
        exact ⟨le_refl _,by omega,here,fun l low high => by omega⟩
      · rintro ⟨low,-,-,earlier⟩
        by_contra other
        have refused := earlier i (le_refl _) (by omega)
        rw [here] at refused
        cases refused
    | false =>
      simp only [Bool.false_eq_true,↓reduceIte,ih]
      constructor
      · rintro ⟨low,high,found,earlier⟩
        refine ⟨by omega,by omega,found,?_⟩
        intro l low' high'
        by_cases start : l = i
        · rw [start,here]
        · exact earlier l (by omega) high'
      · rintro ⟨low,high,found,earlier⟩
        have other : k ≠ i := by
          rintro rfl
          rw [here] at found
          cases found
        exact ⟨by omega,by omega,found,fun l low' high' => earlier l (by omega) high'⟩

theorem first_from_none {n i : Nat} : first_from test i n = none ↔ ∀ l, i ≤ l → l < i + n → test l = false := by
  induction n generalizing i with
  | zero =>
    simp only [first_from,true_iff]
    omega
  | succ n ih =>
    rw [first_from]
    cases here : test i with
    | true =>
      simp only [↓reduceIte,reduceCtorEq,false_iff]
      intro all
      have refused := all i (le_refl _) (by omega)
      rw [here] at refused
      cases refused
    | false =>
      simp only [Bool.false_eq_true,↓reduceIte,ih]
      constructor
      · intro all l low high
        by_cases start : l = i
        · rw [start,here]
        · exact all l (by omega) (by omega)
      · intro all l low high
        exact all l (by omega) (by omega)

/-- A free page outside of the pool with no used page outside of the pool among the
    `count` pages from it on: what the search stops at. -/
def Stops (m : Memory) (count i : Nat) : Prop :=
  is_used m i = false ∧ in_pool m i = false ∧ ∀ j < count, is_used m (i + j) = true → in_pool m (i + j) = true

/-- The page that the search stops at, if any. -/
def First (m : Memory) (count i : Nat) : Prop := i < PAGES ∧ Stops m count i ∧ ∀ k < i, ¬ Stops m count k

/-- A page that rejects a run is no stop, nor is any page of the run before it. -/
theorem blocked_before {m : Memory} {count i j l : Nat} (used : is_used m (i + j) = true)
    (outside : in_pool m (i + j) = false) (short : j < count) (low : i ≤ l) (high : l ≤ i + j) : ¬ Stops m count l := by
  rintro ⟨-,-,clear⟩
  have here : l + (i + j - l) = i + j := by omega
  have pooled := clear (i + j - l) (by omega) (by rw [here]; exact used)
  rw [here,outside] at pooled
  cases pooled

/-- From the label on, the search finds the first stop at or after its page. -/
theorem range_retry_spec {m : Memory} {count fuel i : Nat} (inside : i < PAGES ∨ is_used m i = true)
    (enough : PAGES < i + fuel) (some_ : 0 < fuel) :
    (∀ k, range_retry m count fuel i = some k → i ≤ k ∧ k < PAGES ∧ Stops m count k ∧
      ∀ l, i ≤ l → l < k → ¬ Stops m count l) ∧
    (range_retry m count fuel i = none → ∀ l, i ≤ l → l < PAGES → ¬ Stops m count l) := by
  induction fuel generalizing i with
  | zero => cases some_
  | succ fuel ih =>
    rw [range_retry]
    by_cases passes : (!is_used m i && !in_pool m i) = true
    · rw [if_pos passes]
      have free : is_used m i = false ∧ in_pool m i = false := by simpa using passes
      have low : i < PAGES := inside.resolve_right (by rw [free.1]; decide)
      cases found : first_from (fun j => is_used m (i + j) && !in_pool m (i + j)) 0 count with
      | none =>
        have clear := first_from_none.mp found
        have stops : Stops m count i := by
          refine ⟨free.1,free.2,?_⟩
          intro j short used
          have pooled := clear j (by omega) (by omega)
          simpa [used] using pooled
        refine ⟨?_,by simp⟩
        rintro k ⟨⟩
        exact ⟨le_refl _,low,stops,fun l low high => by omega⟩
      | some j =>
        obtain ⟨-,short,blocks,-⟩ := first_from_some.mp found
        obtain ⟨used,outside⟩ : is_used m (i + j) = true ∧ in_pool m (i + j) = false := by simpa using blocks
        have later : j ≠ 0 := by
          rintro rfl
          rw [Nat.add_zero,free.1] at used
          cases used
        obtain ⟨finds,none⟩ := @ih (i + j) (.inr used) (by omega) (by omega)
        have skipped (l : Nat) (low : i ≤ l) (high : l < i + j) : ¬ Stops m count l :=
          blocked_before used outside (by omega) low (by omega)
        refine ⟨?_,?_⟩
        · intro k here
          obtain ⟨after,inside,stops,earlier⟩ := finds k here
          refine ⟨by omega,inside,stops,?_⟩
          intro l low high
          by_cases before : l < i + j
          · exact skipped l low before
          · exact earlier l (by omega) high
        · intro here l low high
          by_cases before : l < i + j
          · exact skipped l low before
          · exact none here l (by omega) high
    · rw [if_neg passes]
      have refused : ¬ Stops m count i := by
        rintro ⟨free,outside,-⟩
        simp [free,outside] at passes
      by_cases more : i + 1 < PAGES
      · rw [if_pos more]
        obtain ⟨finds,none⟩ := @ih (i + 1) (.inl more) (by omega) (by omega)
        refine ⟨?_,?_⟩
        · intro k here
          obtain ⟨after,inside,stops,earlier⟩ := finds k here
          refine ⟨by omega,inside,stops,?_⟩
          intro l low high
          by_cases start : l = i
          · rw [start]
            exact refused
          · exact earlier l (by omega) high
        · intro here l low high
          by_cases start : l = i
          · rw [start]
            exact refused
          · exact none here l (by omega) high
      · rw [if_neg more]
        refine ⟨by simp,?_⟩
        intro _ l low high
        have start : l = i := by omega
        rw [start]
        exact refused

/-- What `pmm_alloc_range` does. -/
theorem pmm_alloc_range_cases (m : Memory) (count : Nat) :
    (∃ i, First m count i ∧ pmm_alloc_range m count = take_pages m i count) ∨
      (∀ i < PAGES, ¬ Stops m count i) ∧ pmm_alloc_range m count = (m,0) := by
  obtain ⟨finds,none⟩ := @range_retry_spec m count (PAGES + 1) 0 (.inl (by decide)) (by omega) (by omega)
  rw [pmm_alloc_range]
  cases found : range_retry m count (PAGES + 1) 0 with
  | some i =>
    obtain ⟨-,inside,stops,earlier⟩ := finds i found
    exact .inl ⟨i,⟨inside,stops,fun k low => earlier k (by omega) low⟩,rfl⟩
  | none => exact .inr ⟨fun i inside => none found i (by omega) inside,rfl⟩

/-- `count` pages from `i` on that are free and in the pool, or outside of it. -/
def Run (m : Memory) (pool : Bool) (i count : Nat) : Prop :=
  i + count ≤ PAGES ∧ ∀ j < count, is_used m (i + j) = false ∧ in_pool m (i + j) = pool

/-- A page that is returned is the first of a free run, and exactly this run becomes used. -/
def Sound (m : Memory) (pool : Bool) (count : Nat) (r : Memory × Nat) : Prop :=
  r.2 ≠ 0 → ∃ i, r.2 = i * 0x1000 ∧ Run m pool i count ∧ r.1.bitmap_pagetable_mask = m.bitmap_pagetable_mask ∧
    ∀ k, is_used r.1 k = (is_used m k || decide (i ≤ k ∧ k < i + count))

/-- The three allocators on one memory, and NULL only without a run. -/
structure Allocates (m : Memory) (count : Nat) : Prop where
  alloc : ∀ r, pmm_alloc m = some r → Sound m false 1 r
  pagetable : ∀ r, pmm_alloc_pagetable m = some r → Sound m true 1 r
  range : Sound m false count (pmm_alloc_range m count)
  null : (pmm_alloc_range m count).2 = 0 → ¬ ∃ i, Run m false i count

@[simp] theorem take_pages_used (m : Memory) (i count k : Nat) :
    is_used (take_pages m i count).1 k = (is_used m k || decide (i ≤ k ∧ k < i + count)) :=
  bitmap_test_set_range ..

@[simp] theorem take_pages_mask (m : Memory) (i count : Nat) :
    (take_pages m i count).1.bitmap_pagetable_mask = m.bitmap_pagetable_mask := rfl

@[simp] theorem take_pages_address (m : Memory) (i count : Nat) : (take_pages m i count).2 = i * 0x1000 := rfl

theorem take_pages_sound {m : Memory} {i count : Nat} (run : Run m pool i count) :
    Sound m pool count (take_pages m i count) :=
  fun _ => ⟨i,rfl,run,rfl,take_pages_used m i count⟩

/-- Pages found one by one are free and of the right kind. -/
theorem one_page_sound {m : Memory}
    (found : (first_from (fun i => !is_used m i && (in_pool m i == pool)) 0 PAGES).map (fun i => take_pages m i 1) = some r) :
    Sound m pool 1 r := by
  obtain ⟨i,here,rfl⟩ := Option.map_eq_some_iff.mp found
  obtain ⟨-,inside,passes,-⟩ := first_from_some.mp here
  obtain ⟨free,kind⟩ : is_used m i = false ∧ in_pool m i = pool := by simpa using passes
  refine take_pages_sound ⟨by omega,?_⟩
  intro j short
  have start : j = 0 := by omega
  rw [start,Nat.add_zero]
  exact ⟨free,kind⟩

theorem pmm_alloc_sound {m : Memory} (found : pmm_alloc m = some r) : Sound m false 1 r := by
  refine one_page_sound ?_
  rw [← found,pmm_alloc]
  congr 2
  funext i
  cases in_pool m i <;> rfl

theorem pmm_alloc_pagetable_sound {m : Memory} (found : pmm_alloc_pagetable m = some r) : Sound m true 1 r := by
  refine one_page_sound ?_
  rw [← found,pmm_alloc_pagetable]
  congr 2
  funext i
  cases in_pool m i <;> rfl

theorem run_stops {m : Memory} {i count : Nat} (some_ : 1 ≤ count) (run : Run m false i count) :
    i < PAGES ∧ Stops m count i := by
  obtain ⟨fits,pages⟩ := run
  obtain ⟨free,outside⟩ := pages 0 (by omega)
  refine ⟨by omega,free,outside,?_⟩
  intro j short used
  rw [(pages j short).1] at used
  cases used

/-- Where the search stops at a page, it returns a free run exactly when the run fits
    and touches no page of the pool; page 0 is returned as NULL. -/
theorem first_sound {m : Memory} {count i : Nat} (first : First m count i) (nonnull : i ≠ 0) :
    Sound m false count (take_pages m i count) ↔ i + count ≤ PAGES ∧ ∀ j < count, in_pool m (i + j) = false := by
  constructor
  · intro sound
    obtain ⟨k,same,run,-,-⟩ := sound (by rw [take_pages_address]; omega)
    rw [take_pages_address] at same
    have here : k = i := by omega
    rw [here] at run
    exact ⟨run.1,fun j short => (run.2 j short).2⟩
  · rintro ⟨fits,outside⟩
    refine take_pages_sound ⟨fits,?_⟩
    intro j short
    refine ⟨?_,outside j short⟩
    cases used : is_used m (i + j) with
    | false => rfl
    | true =>
      have pooled := first.2.1.2.2 j short used
      rw [outside j short] at pooled
      cases pooled

/-- The allocators are sound exactly when the first free page outside of the pool
    without a used such page among the `count` pages from it on starts a run that fits
    and avoids the pool, or is page 0 while no run exists. -/
theorem allocates_iff {m : Memory} {count : Nat} (some_ : 1 ≤ count) :
    Allocates m count ↔ ∀ i, First m count i →
      if i = 0 then ¬ ∃ k, Run m false k count
      else i + count ≤ PAGES ∧ ∀ j < count, in_pool m (i + j) = false := by
  constructor
  · rintro ⟨-,-,range,null⟩ i first
    rcases pmm_alloc_range_cases m count with ⟨k,here,taken⟩ | ⟨none,-⟩
    · have same : k = i := by
        rcases lt_trichotomy k i with before | same | after
        · exact absurd here.2.1 (first.2.2 k before)
        · exact same
        · exact absurd first.2.1 (here.2.2 i after)
      subst same
      rw [taken] at range null
      split
      · rename_i zero
        exact null (by rw [take_pages_address,zero])
      · rename_i nonnull
        exact (first_sound first nonnull).mp range
    · exact absurd first.2.1 (none i first.1)
  · intro condition
    refine ⟨fun r found => pmm_alloc_sound found,fun r found => pmm_alloc_pagetable_sound found,?_,?_⟩
    · rcases pmm_alloc_range_cases m count with ⟨i,first,taken⟩ | ⟨-,taken⟩
      · rw [taken]
        by_cases zero : i = 0
        · intro nonnull
          exact absurd (by rw [take_pages_address,zero]) nonnull
        · have fits := condition i first
          rw [if_neg zero] at fits
          exact (first_sound first zero).mpr fits
      · rw [taken]
        intro nonnull
        exact absurd rfl nonnull
    · rcases pmm_alloc_range_cases m count with ⟨i,first,taken⟩ | ⟨none,-⟩
      · rw [taken,take_pages_address]
        intro null
        have fits := condition i first
        rwa [if_pos (by omega)] at fits
      · rintro - ⟨i,run⟩
        exact none i (run_stops some_ run).1 (run_stops some_ run).2

/-- Pages 1, 2 and 3 are free; `pooled` says which of them are in the pool. -/
def few_pages (pooled : Nat) : Memory where
  bitmap := clear_range (fun _ => 0) 1 3
  bitmap_pagetable_mask := bitmap_set (fun _ => 0xffffffff#32) pooled
  free_memory := 0x3000
  used_memory := 0

theorem allocates_few : Allocates (few_pages 3) 2 :=
  (allocates_iff (by decide)).mpr (by
    intro i first
    have start : i = 1 := by
      have stops : Stops (few_pages 3) 2 1 := ⟨by decide +kernel,by decide +kernel,by decide +kernel⟩
      have zero : ¬ Stops (few_pages 3) 2 0 := fun stops => absurd stops.1 (by decide +kernel)
      rcases lt_trichotomy i 1 with before | same | after
      · have null : i = 0 := by omega
        rw [null] at first
        exact absurd first.2.1 zero
      · exact same
      · exact absurd stops (first.2.2 1 after)
    rw [start]
    exact ⟨by decide,by decide +kernel⟩)

/-- A run of two pages is returned although the second is in the pool. -/
theorem range_takes_pool : ¬ ∀ m count, 1 ≤ count → Allocates m count := by
  intro always
  have sound := (always (few_pages 2) 2 (by decide)).range
  obtain ⟨i,address,run,-⟩ := sound (by decide +kernel)
  have start : i = 1 := by
    have value : (pmm_alloc_range (few_pages 2) 2).2 = 0x1000 := by decide +kernel
    omega
  rw [start] at run
  exact absurd (run.2 1 (by decide)).2 (by decide +kernel)

end MicroOS.Pmm

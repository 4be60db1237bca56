import Mathlib.Data.BitVec
import MicroOS.Pmm
import MicroOS.Runs

/-!
The counters `free_memory` and `used_memory` from the start of the kernel on. They
move with every call, while a bit that has its value already stays, so they are
right as long as each call flips as many bits as it counts.
-/
namespace MicroOS.PmmAccounting
open Pmm Runs

/-- An entry of the multiboot memory map. -/
structure Mmap where
  base : Nat
  length : Nat
  type : Nat

/-- What the kernel finds when it starts: the memory map, the addresses of the linker
    script, the multiboot structures with the start and end of each module, and the
    entries that are present in the page directory `cr3` points to. -/
structure Boot where
  mmap : List Mmap
  kernel_start : Nat
  kernel_end : Nat
  paging_start : Nat
  paging_end : Nat
  multiboot_info : Nat
  modules : Nat
  mods : List (Nat × Nat)
  cr3_present : Nat → Bool

/-- The addresses of a loop `while (addr < end_addr)` that goes on by a page. -/
def loop_pages (end_addr : Nat) : Nat → Nat → List Nat
  | 0, _ => []
  | fuel+1, addr => if addr < end_addr then addr :: loop_pages end_addr fuel ((addr + 0x1000) % 2 ^ 32) else []

/-- As many rounds as there are pages: the loop ends within them unless it runs into
    the last page and never ends. -/
def pages (addr end_addr : Nat) : List Nat := loop_pages end_addr PAGES addr

/-- The pages of an entry that `pmm_init` frees. -/
def mmap_pages (r : Mmap) : List Nat :=
  if r.type = 1 then
    if r.base > 0xfffff000 then []
    else pages r.base (if (r.base + r.length) % 2 ^ 64 > 0xffffffff then 0xfffff000 else (r.base + r.length) % 2 ^ 32)
  else []

def fill (map : Bitmap) (value : BitVec 32) : Bitmap := fun w => if w < BITMAP_SIZE then value else map w

/-- `pmm_init` up to `used_memory = 0`. -/
def free_regions (m : Memory) (b : Boot) : Memory :=
  let m := { m with bitmap := fill m.bitmap 0, bitmap_pagetable_mask := fill m.bitmap_pagetable_mask 0xffffffff }
  { (b.mmap.flatMap mmap_pages).foldl pmm_free m with used_memory := 0 }

inductive Call where
  | pmm_alloc
  | pmm_alloc_pagetable
  | pmm_mark_used (page : Nat)
  | pmm_free (page : Nat)
  | pmm_alloc_range (count : Nat)
  | pmm_free_range (page count : Nat)
  /-- `bitmap_set` on the mask, in `pmm_init` only. -/
  | reserve_pool (page : Nat)

/-- `none` when the kernel stops. -/
def perform (m : Memory) : Call → Option Memory
  | .pmm_alloc => (pmm_alloc m).map Prod.fst
  | .pmm_alloc_pagetable => (pmm_alloc_pagetable m).map Prod.fst
  | .pmm_mark_used page => some (pmm_mark_used m page)
  | .pmm_free page => some (pmm_free m page)
  | .pmm_alloc_range count => some (pmm_alloc_range m count).1
  | .pmm_free_range page count => some (pmm_free_range m page count)
  | .reserve_pool page => some { m with bitmap_pagetable_mask := bitmap_set m.bitmap_pagetable_mask (page / 0x1000) }

def performs (m : Memory) : List Call → Option Memory
  | [] => some m
  | call :: rest => (perform m call).bind (fun m => performs m rest)

/-- The rest of `pmm_init`. -/
def pmm_init_calls (b : Boot) : List Call :=
  (pages b.kernel_start b.kernel_end).map Call.pmm_mark_used ++ (pages b.paging_start b.paging_end).map Call.reserve_pool ++
    [Call.pmm_mark_used b.multiboot_info,.pmm_mark_used b.modules] ++
    (b.mods.flatMap (fun m => pages m.1 m.2)).map Call.pmm_mark_used ++ [Call.pmm_mark_used 0]

/-- The entries present in the directory of the kernel context and in the current one. -/
structure Directories where
  kernel : Nat → Bool
  current : Nat → Bool

/-- What an identity mapping by `vmm_map_page` asks of the physical memory manager
    before paging is on: a page table in each of the two directories, where missing. -/
def vmm_map_page (d : Directories) (virt : Nat) : Directories × List Call :=
  if virt % 0x1000 ≠ 0 then (d,[])
  else
    let pd_index := virt / 0x1000 / 1024
    (⟨Function.update d.kernel pd_index true,Function.update d.current pd_index true⟩,
      (if d.current pd_index then [] else [Call.pmm_alloc_pagetable]) ++ if d.kernel pd_index then [] else [Call.pmm_alloc_pagetable])

def vmm_map_pages (d : Directories) : List Nat → Directories × List Call
  | [] => (d,[])
  | virt :: rest =>
    ((vmm_map_pages (vmm_map_page d virt).1 rest).1,(vmm_map_page d virt).2 ++ (vmm_map_pages (vmm_map_page d virt).1 rest).2)

/-- The calls of `vmm_init`, with the framebuffer of the text mode. -/
def vmm_init_calls (b : Boot) : List Call :=
  let (d,kernel) := vmm_map_pages ⟨fun _ => false,b.cr3_present⟩
    (pages b.kernel_start b.kernel_end ++ pages b.paging_start b.paging_end ++ [0xb8000])
  let (_,multiboot) := vmm_map_pages d ([b.multiboot_info / 0x1000 * 0x1000,b.modules / 0x1000 * 0x1000] ++
    b.mods.flatMap (fun m => pages m.1 m.2) ++ [0])
  [Call.pmm_alloc_pagetable,.pmm_alloc_pagetable] ++ kernel ++ [Call.pmm_mark_used 0xb8000] ++ multiboot

/-- `pmm_init` and `vmm_init`. -/
def boot (m : Memory) (b : Boot) : Option Memory := performs (free_regions m b) (pmm_init_calls b ++ vmm_init_calls b)

/-- Aligned and disjoint type-1 regions below 4 GB. -/
structure Valid (b : Boot) : Prop where
  aligned : ∀ r ∈ b.mmap, r.type = 1 → r.base % 0x1000 = 0 ∧ r.length % 0x1000 = 0 ∧ r.base + r.length ≤ 2 ^ 32
  disjoint : b.mmap.Pairwise (fun r r' => r.type = 1 → r'.type = 1 →
    r.base + r.length ≤ r'.base ∨ r'.base + r'.length ≤ r.base)

/-- The counters of the `.bss` section before `pmm_init`. -/
def Fresh (m : Memory) : Prop := m.free_memory = 0 ∧ m.used_memory = 0

/-- Any calls after the start, as long as the kernel does not stop. -/
def pmm_system (m : Memory) (b : Boot) : System Memory Call where
  start x := boot m b = some x
  step x call y := (∀ page, call ≠ .reserve_pool page) ∧ perform x call = some y

/-- The number of free bits. -/
def freePages (m : Memory) : Nat := ((Finset.range PAGES).filter (fun k => is_used m k = false)).card

/-- The counters are right, and their sum is what it was when the regions had been freed. -/
structure Accounted (m : Memory) (b : Boot) (x : Memory) : Prop where
  free : x.free_memory = BitVec.ofNat 32 (0x1000 * freePages x)
  sum : x.used_memory + x.free_memory = (free_regions m b).free_memory

/-- How many of the pages from `i` on are no free, or no used, pages of the bitmap. -/
def notFree (m : Memory) (i count : Nat) : Nat :=
  ((Finset.Ico i (i + count)).filter (fun k => ¬ (k < PAGES ∧ is_used m k = false))).card
def notUsed (m : Memory) (i count : Nat) : Nat :=
  ((Finset.Ico i (i + count)).filter (fun k => ¬ (k < PAGES ∧ is_used m k = true))).card

/-- A call that counts pages flips the bits of all of them (or all but a multiple of
    `2 ^ 20`, which the counters of 32 bits do not see). -/
def Exact (m : Memory) : Call → Prop
  | .pmm_mark_used page => notFree m (page / 4096) 1 % 2 ^ 20 = 0
  | .pmm_free page => notUsed m (page / 4096) 1 % 2 ^ 20 = 0
  | .pmm_alloc_range count => ∀ i, First m count i → notFree m i count % 2 ^ 20 = 0
  | .pmm_free_range page count => notUsed m (page / 4096) count % 2 ^ 20 = 0
  | _ => True

/-- Whether a call marks a page that is used already. -/
def marks_again (m : Memory) : Call → Nat
  | .pmm_mark_used page => notFree m (page / 4096) 1
  | _ => 0

/-- How often the start marks a page that is used already. -/
def double_marks (m : Memory) : List Call → Nat
  | [] => 0
  | call :: rest => marks_again m call + match perform m call with | some m => double_marks m rest | none => 0

def gap (m : Memory) : BitVec 32 := BitVec.ofNat 32 (0x1000 * freePages m) - m.free_memory

theorem gap_zero (m : Memory) : gap m = 0 ↔ m.free_memory = BitVec.ofNat 32 (0x1000 * freePages m) := by
  rw [gap]
  constructor
  · intro none
    bv_omega
  · intro same
    rw [same]
    bv_omega

theorem pages_zero (n : Nat) : BitVec.ofNat 32 (0x1000 * n) = 0 ↔ n % 2 ^ 20 = 0 := by
  rw [← BitVec.toNat_inj,BitVec.toNat_ofNat]
  simp only [BitVec.ofNat_eq_ofNat,BitVec.toNat_ofNat,Nat.zero_mod]
  omega

def sum (m : Memory) : BitVec 32 := m.used_memory + m.free_memory

/-- The members of a set below a bound, counted inside and outside of a window. -/
theorem card_split (bound : Nat) (p : Nat → Prop) [DecidablePred p] (window : Finset Nat) :
    ((Finset.range bound).filter (fun k => p k ∧ k ∉ window)).card + (window.filter (fun k => k < bound ∧ p k)).card =
      ((Finset.range bound).filter p).card := by
  rw [← Finset.card_union_of_disjoint]
  · refine congrArg Finset.card ?_
    ext k
    simp only [Finset.mem_union,Finset.mem_filter,Finset.mem_range]
    tauto
  · rw [Finset.disjoint_left]
    intro k
    simp only [Finset.mem_filter,Finset.mem_range]
    tauto

/-- The members of a window below a bound and the others make up the window. -/
theorem card_window (i count : Nat) (p : Nat → Prop) [DecidablePred p] :
    ((Finset.Ico i (i + count)).filter p).card + ((Finset.Ico i (i + count)).filter (fun k => ¬ p k)).card = count := by
  rw [Finset.card_filter_add_card_filter_not,Nat.card_Ico]
  omega

/-- The members of a window below a bound, counted by the value of a test. -/
theorem card_kinds (bound : Nat) (test : Nat → Bool) (window : Finset Nat) :
    (window.filter (fun k => k < bound ∧ test k = true)).card + (window.filter (fun k => k < bound ∧ test k = false)).card =
      (window.filter (fun k => k < bound)).card := by
  rw [← Finset.card_union_of_disjoint]
  · refine congrArg Finset.card ?_
    ext k
    simp only [Finset.mem_union,Finset.mem_filter]
    cases test k <;> simp
  · rw [Finset.disjoint_left]
    intro k
    simp only [Finset.mem_filter]
    cases test k <;> simp

/-- Taking pages: the bitmap loses those that were free, the counter all of them. -/
theorem take_freePages (m : Memory) (i count : Nat) :
    freePages (take_pages m i count).1 + count = freePages m + notFree m i count := by
  have parts := card_window i count (fun k => k < PAGES ∧ is_used m k = false)
  have split := card_split PAGES (fun k => is_used m k = false) (Finset.Ico i (i + count))
  have left : freePages (take_pages m i count).1 =
      ((Finset.range PAGES).filter (fun k => is_used m k = false ∧ k ∉ Finset.Ico i (i + count))).card := by
    refine congrArg Finset.card (Finset.filter_congr ?_)
    intro k _
    simp only [take_pages_used,Bool.or_eq_false_iff,decide_eq_false_iff_not,Finset.mem_Ico]
  simp only [notFree,freePages] at *
  omega

/-- The pages from `i` on become free. -/
def free_pages (m : Memory) (i count : Nat) : Memory :=
  pmm_usage_unuse { m with bitmap := clear_range m.bitmap i count } count

@[simp] theorem free_pages_used (m : Memory) (i count k : Nat) :
    is_used (free_pages m i count) k = (is_used m k && !decide (i ≤ k ∧ k < i + count)) :=
  bitmap_test_clear_range ..

variable {missed after before : Nat} {call : Call}

theorem counts_free {used count kept window free : Nat} (parts : used + missed = count)
    (gained : kept + window = after) (had : kept + free = before) (kinds : used + free = window) :
    after + missed = before + count := by
  omega

/-- Freeing pages: the bitmap gains those that were used, the counter all of them. -/
theorem free_freePages (m : Memory) (i count : Nat) :
    freePages (free_pages m i count) + notUsed m i count = freePages m + count := by
  have parts := card_window i count (fun k => k < PAGES ∧ is_used m k = true)
  have after := card_split PAGES (fun k => is_used (free_pages m i count) k = false) (Finset.Ico i (i + count))
  have before := card_split PAGES (fun k => is_used m k = false) (Finset.Ico i (i + count))
  have outside : ((Finset.range PAGES).filter (fun k => is_used (free_pages m i count) k = false ∧
      k ∉ Finset.Ico i (i + count))) =
      (Finset.range PAGES).filter (fun k => is_used m k = false ∧ k ∉ Finset.Ico i (i + count)) := by
    refine Finset.filter_congr ?_
    intro k _
    rw [free_pages_used,Finset.mem_Ico]
    by_cases here : i ≤ k ∧ k < i + count
    · simp [here]
    · rw [decide_eq_false here]
      simp
  have inside : (Finset.Ico i (i + count)).filter (fun k => k < PAGES ∧ is_used (free_pages m i count) k = false) =
      (Finset.Ico i (i + count)).filter (fun k => k < PAGES) := by
    refine Finset.filter_congr ?_
    intro k member
    rw [free_pages_used,decide_eq_true (Finset.mem_Ico.mp member)]
    simp
  have kinds : ((Finset.Ico i (i + count)).filter (fun k => k < PAGES ∧ is_used m k = true)).card +
      ((Finset.Ico i (i + count)).filter (fun k => k < PAGES ∧ is_used m k = false)).card =
      ((Finset.Ico i (i + count)).filter (fun k => k < PAGES)).card := by
    exact card_kinds PAGES (is_used m) (Finset.Ico i (i + count))
  rw [outside,inside] at after
  exact counts_free parts after before kinds

theorem words_take {count : Nat} (x : BitVec 32) (counted : after + count = before + missed) :
    BitVec.ofNat 32 (0x1000 * after) - (x - BitVec.ofNat 32 (count * 0x1000)) =
      BitVec.ofNat 32 (0x1000 * before) - x + BitVec.ofNat 32 (0x1000 * missed) := by
  have words := congrArg (fun n => BitVec.ofNat 32 (0x1000 * n)) counted
  simp only [Nat.mul_add,BitVec.ofNat_add] at words
  rw [Nat.mul_comm count]
  linear_combination words

theorem words_free {count : Nat} (x : BitVec 32) (counted : after + missed = before + count) :
    BitVec.ofNat 32 (0x1000 * after) - (x + BitVec.ofNat 32 (count * 0x1000)) =
      BitVec.ofNat 32 (0x1000 * before) - x - BitVec.ofNat 32 (0x1000 * missed) := by
  have words := congrArg (fun n => BitVec.ofNat 32 (0x1000 * n)) counted
  simp only [Nat.mul_add,BitVec.ofNat_add] at words
  rw [Nat.mul_comm count]
  linear_combination words

theorem gap_take (m : Memory) (i count : Nat) :
    gap (take_pages m i count).1 = gap m + BitVec.ofNat 32 (0x1000 * notFree m i count) :=
  words_take m.free_memory (take_freePages m i count)

theorem gap_free (m : Memory) (i count : Nat) :
    gap (free_pages m i count) = gap m - BitVec.ofNat 32 (0x1000 * notUsed m i count) :=
  words_free m.free_memory (free_freePages m i count)

theorem sum_take (m : Memory) (i count : Nat) : sum (take_pages m i count).1 = sum m := by
  simp only [sum,take_pages,pmm_usage_use]
  bv_omega

theorem sum_free (m : Memory) (i count : Nat) : sum (free_pages m i count) = sum m := by
  simp only [sum,free_pages,pmm_usage_unuse]
  bv_omega

/-- What a call does to the bitmap and the counters. -/
inductive Does (m : Memory) (call : Call) : Memory → Prop
  | took (i count : Nat) (exact : Exact m call ↔ notFree m i count % 2 ^ 20 = 0) :
      Does m call (take_pages m i count).1
  | freed (i count : Nat) (exact : Exact m call ↔ notUsed m i count % 2 ^ 20 = 0) :
      Does m call (free_pages m i count)
  | kept (mask : Bitmap) (exact : Exact m call) : Does m call { m with bitmap_pagetable_mask := mask }

/-- A free page of the bitmap is counted once. -/
theorem notFree_one {m : Memory} {i : Nat} (inside : i < PAGES) (free : is_used m i = false) : notFree m i 1 = 0 := by
  rw [notFree,Finset.card_eq_zero,Finset.filter_eq_empty_iff]
  intro k member
  rw [Finset.mem_Ico] at member
  have here : k = i := by omega
  rw [here]
  exact not_not.mpr ⟨inside,free⟩

theorem one_page_does {m m' : Memory} {call : Call} {test : Nat → Bool}
    (free : ∀ i, test i = true → is_used m i = false) (exact : Exact m call)
    (found : ((first_from test 0 PAGES).map (fun i => take_pages m i 1)).map Prod.fst = some m') : Does m call m' := by
  obtain ⟨r,page,rfl⟩ := Option.map_eq_some_iff.mp found
  obtain ⟨i,here,rfl⟩ := Option.map_eq_some_iff.mp page
  obtain ⟨-,inside,passes,-⟩ := first_from_some.mp here
  refine .took i 1 ?_
  rw [notFree_one (by omega) (free i passes)]
  simpa using exact

theorem perform_does {m m' : Memory} (done : perform m call = some m') : Does m call m' := by
  cases call with
  | pmm_alloc =>
    refine @one_page_does _ _ _ (fun i => !is_used m i && !in_pool m i) ?_ trivial done
    intro i passes
    simp only [Bool.and_eq_true,Bool.not_eq_true'] at passes
    exact passes.1
  | pmm_alloc_pagetable =>
    refine @one_page_does _ _ _ (fun i => !is_used m i && in_pool m i) ?_ trivial done
    intro i passes
    simp only [Bool.and_eq_true,Bool.not_eq_true'] at passes
    exact passes.1
  | pmm_mark_used page =>
    cases done
    exact .took (page / 4096) 1 Iff.rfl
  | pmm_free page =>
    cases done
    exact .freed (page / 4096) 1 Iff.rfl
  | pmm_alloc_range count =>
    cases done
    rcases pmm_alloc_range_cases m count with ⟨i,first,taken⟩ | ⟨none,taken⟩
    · rw [taken]
      refine .took i count ?_
      constructor
      · intro exact
        exact exact i first
      · intro counted k other
        have same : k = i := by
          rcases lt_trichotomy k i with before | same | after
          · exact absurd other.2.1 (first.2.2 k before)
          · exact same
          · exact absurd first.2.1 (other.2.2 i after)
        rw [same]
        exact counted
    · rw [taken]
      exact .kept m.bitmap_pagetable_mask (fun i first => absurd first.2.1 (none i first.1))
  | pmm_free_range page count =>
    cases done
    exact .freed (page / 4096) count Iff.rfl
  | reserve_pool page =>
    cases done
    exact .kept _ trivial

/-- After a call the counters are right exactly when the call was exact. -/
theorem accounted_iff {m x y : Memory} {b : Boot} (accounted : Accounted m b x)
    (done : perform x call = some y) : Accounted m b y ↔ Exact x call := by
  have level := (gap_zero x).mpr accounted.free
  have total : sum x = (free_regions m b).free_memory := accounted.sum
  have right (y : Memory) (same : sum y = sum x) : Accounted m b y ↔ gap y = 0 := by
    rw [gap_zero]
    exact ⟨fun accounted => accounted.free,fun free => ⟨free,same.trans total⟩⟩
  cases perform_does done with
  | took i count exact =>
    rw [right _ (sum_take x i count),gap_take,level,exact,← pages_zero]
    simp
  | freed i count exact =>
    rw [right _ (sum_free x i count),gap_free,level,exact,← pages_zero]
    simp
  | kept mask exact =>
    have same : gap { x with bitmap_pagetable_mask := mask } = 0 := level
    rw [right { x with bitmap_pagetable_mask := mask } rfl,same]
    exact iff_of_true rfl exact

/-- The pages of a loop that ends below the last page: in order, and all of them. -/
theorem loop_pages_spec {end_addr : Nat} (small : end_addr ≤ 0xfffff000) (fuel addr : Nat) :
    (∀ a ∈ loop_pages end_addr fuel addr, ∃ k, a = addr + 0x1000 * k ∧ a < end_addr) ∧
      (loop_pages end_addr fuel addr).Pairwise (· < ·) ∧
      ∀ k < fuel, addr + 0x1000 * k < end_addr → addr + 0x1000 * k ∈ loop_pages end_addr fuel addr := by
  induction fuel generalizing addr with
  | zero => simp [loop_pages]
  | succ fuel ih =>
    rw [loop_pages]
    by_cases more : addr < end_addr
    · have next : (addr + 0x1000) % 2 ^ 32 = addr + 0x1000 := Nat.mod_eq_of_lt (by omega)
      rw [if_pos more,next]
      obtain ⟨inside,order,all⟩ := ih (addr + 0x1000)
      refine ⟨?_,?_,?_⟩
      · intro a member
        rcases List.mem_cons.mp member with rfl | later
        · exact ⟨0,by omega,more⟩
        · obtain ⟨k,here,low⟩ := inside a later
          exact ⟨k + 1,by omega,low⟩
      · refine List.pairwise_cons.mpr ⟨?_,order⟩
        intro a later
        obtain ⟨k,here,-⟩ := inside a later
        omega
      · intro k short low
        cases k with
        | zero => exact List.mem_cons_self
        | succ k =>
          have later := all k (by omega) (by omega)
          rw [show addr + 0x1000 * (k + 1) = addr + 0x1000 + 0x1000 * k by omega]
          exact List.mem_cons_of_mem _ later
    · rw [if_neg more]
      refine ⟨by simp,.nil,?_⟩
      intro k _ low
      omega

/-- The pages of an aligned region are its own and follow one another. -/
theorem mmap_pages_spec {r : Mmap} (aligned : r.type = 1 → r.base % 0x1000 = 0 ∧ r.length % 0x1000 = 0 ∧ r.base + r.length ≤ 2 ^ 32) :
    (∀ a ∈ mmap_pages r, r.type = 1 ∧ a % 0x1000 = 0 ∧ r.base ≤ a ∧ a < r.base + r.length) ∧
      (mmap_pages r).Pairwise (· < ·) := by
  rw [mmap_pages]
  split
  · rename_i usable
    obtain ⟨base,length,high⟩ := aligned usable
    split
    · exact ⟨by simp,.nil⟩
    · rename_i low
      have whole : (r.base + r.length) % 2 ^ 64 = r.base + r.length := Nat.mod_eq_of_lt (by omega)
      rw [whole]
      split
      · obtain ⟨inside,order,-⟩ := @loop_pages_spec 0xfffff000 (le_refl _) PAGES r.base
        refine ⟨?_,order⟩
        intro a member
        obtain ⟨k,here,below⟩ := inside a member
        exact ⟨usable,by omega,by omega,by omega⟩
      · have cut : (r.base + r.length) % 2 ^ 32 = r.base + r.length := Nat.mod_eq_of_lt (by omega)
        rw [cut]
        obtain ⟨inside,order,-⟩ := @loop_pages_spec (r.base + r.length) (by omega) PAGES r.base
        refine ⟨?_,order⟩
        intro a member
        obtain ⟨k,here,below⟩ := inside a member
        exact ⟨usable,by omega,by omega,below⟩
  · exact ⟨by simp,.nil⟩

theorem regions_distinct {b : Boot} (valid : Valid b) :
    (b.mmap.flatMap mmap_pages).Pairwise (fun a a' => a / 4096 ≠ a' / 4096) := by
  rw [List.pairwise_flatMap]
  constructor
  · intro r member
    obtain ⟨inside,order⟩ := mmap_pages_spec (valid.aligned r member)
    refine order.imp_of_mem ?_
    intro a a' here there before
    have first := (inside a here).2.1
    have second := (inside a' there).2.1
    omega
  · refine valid.disjoint.imp_of_mem ?_
    intro r r' member member' apart a here a' there
    obtain ⟨usable,first,low,high⟩ := (mmap_pages_spec (valid.aligned r member)).1 a here
    obtain ⟨usable',second,low',high'⟩ := (mmap_pages_spec (valid.aligned r' member')).1 a' there
    have order := apart usable usable'
    omega

/-- A used page of the bitmap is counted once. -/
theorem notUsed_one {m : Memory} {i : Nat} (inside : i < PAGES) (used : is_used m i = true) : notUsed m i 1 = 0 := by
  rw [notUsed,Finset.card_eq_zero,Finset.filter_eq_empty_iff]
  intro k member
  rw [Finset.mem_Ico] at member
  have here : k = i := by omega
  rw [here]
  exact not_not.mpr ⟨inside,used⟩

/-- Different used pages are freed without a gap. -/
theorem free_all {addrs : List Nat} {m : Memory} (used : ∀ a ∈ addrs, a / 4096 < PAGES ∧ is_used m (a / 4096) = true)
    (distinct : addrs.Pairwise (fun a a' => a / 4096 ≠ a' / 4096)) : gap (addrs.foldl pmm_free m) = gap m := by
  induction addrs generalizing m with
  | nil => rfl
  | cons a rest ih =>
    obtain ⟨apart,distinct⟩ := List.pairwise_cons.mp distinct
    obtain ⟨inside,here⟩ := used a List.mem_cons_self
    have first : gap (pmm_free m a) = gap m := by
      have freed : pmm_free m a = free_pages m (a / 4096) 1 := rfl
      rw [freed,gap_free,notUsed_one inside here]
      simp
    rw [List.foldl_cons,@ih (pmm_free m a) ?_ distinct,first]
    intro a' later
    obtain ⟨inside',there⟩ := used a' (List.mem_cons_of_mem _ later)
    refine ⟨inside',?_⟩
    have other := apart a' later
    have kept : is_used (pmm_free m a) (a' / 4096) = (is_used m (a' / 4096) && a' / 4096 != a / 4096) :=
      bitmap_test_clear ..
    rw [kept,there]
    simpa using Ne.symm other

theorem fill_used (m : Memory) (mask : Bitmap) {k : Nat} (inside : k < PAGES) :
    is_used { m with bitmap := fill m.bitmap 0, bitmap_pagetable_mask := mask } k = true := by
  have word : k / 32 < BITMAP_SIZE := by
    rw [PAGES] at inside
    omega
  simp only [is_used,bitmap_test,fill,word,↓reduceIte]
  simp

/-- After the regions are freed the counter is right. -/
theorem regions_level {m : Memory} {b : Boot} (fresh : Fresh m) (valid : Valid b) : gap (free_regions m b) = 0 := by
  have filled := @fill_used m (fill m.bitmap_pagetable_mask 0xffffffff)
  have empty : gap { m with
      bitmap := fill m.bitmap 0, bitmap_pagetable_mask := fill m.bitmap_pagetable_mask 0xffffffff } = 0 := by
    rw [gap_zero,freePages,Finset.filter_false_of_mem]
    · simpa using fresh.1
    · intro k member
      rw [filled (Finset.mem_range.mp member)]
      decide
  rw [← empty]
  refine free_all ?_ (regions_distinct valid)
  intro a member
  obtain ⟨r,listed,here⟩ := List.mem_flatMap.mp member
  obtain ⟨usable,-,-,high⟩ := (mmap_pages_spec (valid.aligned r listed)).1 a here
  have inside : a / 4096 < PAGES := by
    have below := (valid.aligned r listed usable).2.2
    have value : PAGES = 2 ^ 20 := by decide
    omega
  exact ⟨inside,filled inside⟩

/-- The calls of the start. -/
def Starting : Call → Prop
  | .pmm_alloc_pagetable | .pmm_mark_used _ | .reserve_pool _ => True
  | _ => False

theorem vmm_map_pages_starting (d : Directories) (addrs : List Nat) : ∀ call ∈ (vmm_map_pages d addrs).2, Starting call := by
  induction addrs generalizing d with
  | nil => simp [vmm_map_pages]
  | cons virt rest ih =>
    intro call member
    rcases List.mem_append.mp member with here | later
    · have table : call = .pmm_alloc_pagetable := by
        simp only [vmm_map_page] at here
        split_ifs at here <;> simp_all
      rw [table]
      trivial
    · exact ih _ call later

theorem boot_starting (b : Boot) : ∀ call ∈ pmm_init_calls b ++ vmm_init_calls b, Starting call := by
  intro call member
  rcases List.mem_append.mp member with first | second
  · simp only [pmm_init_calls,List.mem_append,List.mem_map,List.mem_cons,List.not_mem_nil,or_false] at first
    rcases first with (((⟨_,-,rfl⟩ | ⟨_,-,rfl⟩) | rfl | rfl) | ⟨_,-,rfl⟩) | rfl <;> trivial
  · simp only [vmm_init_calls,List.mem_append,List.mem_cons,List.not_mem_nil,or_false] at second
    rcases second with (((rfl | rfl) | mapped) | rfl) | mapped
    · trivial
    · trivial
    · exact vmm_map_pages_starting _ _ call mapped
    · trivial
    · exact vmm_map_pages_starting _ _ call mapped

/-- A call of the start opens the gap by the page it marks a second time. -/
theorem starting_gap {m x : Memory} (starting : Starting call) (done : perform m call = some x) :
    gap x = gap m + BitVec.ofNat 32 (0x1000 * marks_again m call) ∧ sum x = sum m := by
  cases call with
  | pmm_alloc => cases starting
  | pmm_alloc_pagetable =>
    obtain ⟨r,page,rfl⟩ := Option.map_eq_some_iff.mp done
    obtain ⟨i,here,rfl⟩ := Option.map_eq_some_iff.mp page
    obtain ⟨-,inside,passes,-⟩ := first_from_some.mp here
    have free : is_used m i = false := by
      simp only [Bool.and_eq_true,Bool.not_eq_true'] at passes
      exact passes.1
    have moved := gap_take m i 1
    rw [notFree_one (by omega) free] at moved
    exact ⟨moved,sum_take m i 1⟩
  | pmm_mark_used page =>
    cases done
    exact ⟨gap_take m (page / 4096) 1,sum_take m (page / 4096) 1⟩
  | pmm_free page => cases starting
  | pmm_alloc_range count => cases starting
  | pmm_free_range page count => cases starting
  | reserve_pool page =>
    cases done
    have same : gap { m with bitmap_pagetable_mask := bitmap_set m.bitmap_pagetable_mask (page / 0x1000) } = gap m := rfl
    exact ⟨by rw [same]; simp [marks_again],rfl⟩

theorem starting_run {m x : Memory} {calls : List Call} (starting : ∀ call ∈ calls, Starting call)
    (done : performs m calls = some x) : gap x = gap m + BitVec.ofNat 32 (0x1000 * double_marks m calls) ∧ sum x = sum m := by
  induction calls generalizing m with
  | nil =>
    cases done
    exact ⟨by simp [double_marks],rfl⟩
  | cons call rest ih =>
    obtain ⟨y,first,later⟩ := Option.bind_eq_some_iff.mp done
    obtain ⟨opened,kept⟩ := starting_gap (starting call List.mem_cons_self) first
    obtain ⟨opened',kept'⟩ := ih (fun call member => starting call (List.mem_cons_of_mem _ member)) later
    refine ⟨?_,kept'.trans kept⟩
    rw [opened',opened,double_marks,first,Nat.mul_add,BitVec.ofNat_add,add_assoc]

/-- The start leaves the counters right exactly when it marks no page twice. -/
theorem boot_accounted {m x : Memory} {b : Boot} (fresh : Fresh m) (valid : Valid b) (booted : boot m b = some x) :
    Accounted m b x ↔ double_marks (free_regions m b) (pmm_init_calls b ++ vmm_init_calls b) % 2 ^ 20 = 0 := by
  obtain ⟨opened,kept⟩ := starting_run (boot_starting b) booted
  rw [regions_level fresh valid] at opened
  have total : sum x = (free_regions m b).free_memory := by
    rw [kept,sum]
    exact zero_add _
  rw [← pages_zero]
  constructor
  · intro accounted
    have level := (gap_zero x).mpr accounted.free
    rw [level] at opened
    simpa using opened.symm
  · intro none
    refine ⟨(gap_zero x).mp ?_,total⟩
    rw [opened,none]
    simp

/-- The counters are right after the start exactly when it marks no used page; from
    there they are right along the runs of exact calls, and after a further call
    exactly when it is exact. -/
theorem memory_accounted {m : Memory} {b : Boot} (fresh : Fresh m) (valid : Valid b) :
    (∀ x, boot m b = some x →
      (Accounted m b x ↔ double_marks (free_regions m b) (pmm_init_calls b ++ vmm_init_calls b) % 2 ^ 20 = 0)) ∧
    (double_marks (free_regions m b) (pmm_init_calls b ++ vmm_init_calls b) % 2 ^ 20 = 0 →
      ∀ x, Reached (guarded (pmm_system m b) Exact) x →
        Accounted m b x ∧ ∀ call y, perform x call = some y → (Accounted m b y ↔ Exact x call)) := by
  refine ⟨fun x booted => boot_accounted fresh valid booted,?_⟩
  intro clean x reached
  have accounted : Accounted m b x := by
    refine guarded_invariant ?_ ?_ reached
    · intro x booted
      exact (boot_accounted fresh valid booted).mpr clean
    · rintro x call y accounted ⟨-,done⟩ exact
      exact (accounted_iff accounted done).mpr exact
  exact ⟨accounted,fun call y done => accounted_iff accounted done⟩

/-- The `.bss` section, and a small machine whose framebuffer is no usable memory, or
    lies in a region of its own. -/
def bss : Memory := ⟨fun _ => 0,fun _ => 0,0,0⟩
def small_machine (more : List Mmap) : Boot where
  mmap := ⟨0,0xa000,1⟩ :: more
  kernel_start := 0x1000
  kernel_end := 0x2000
  paging_start := 0x2000
  paging_end := 0x8000
  multiboot_info := 0x8000
  modules := 0x9000
  mods := []
  cr3_present := fun _ => true

def framebuffer_region : Mmap := ⟨0xb8000,0x1000,1⟩

theorem small_valid : Valid (small_machine []) := ⟨by simp [small_machine],by simp [small_machine]⟩
theorem region_valid : Valid (small_machine [framebuffer_region]) :=
  ⟨by simp [small_machine,framebuffer_region],by simp [small_machine,framebuffer_region]⟩

theorem memory_accounted_small : ∃ x, boot bss (small_machine [framebuffer_region]) = some x ∧
    Accounted bss (small_machine [framebuffer_region]) x := by
  obtain ⟨x,booted⟩ := Option.isSome_iff_exists.mp
    (show (boot bss (small_machine [framebuffer_region])).isSome = true by decide +kernel)
  exact ⟨x,booted,((memory_accounted ⟨rfl,rfl⟩ region_valid).1 x booted).mpr (by decide +kernel)⟩

/-- The framebuffer in text mode is marked used although it never was free. -/
theorem framebuffer_miscounted : ¬ ∀ m b, Fresh m → Valid b → ∀ x, Reached (pmm_system m b) x → Accounted m b x := by
  intro always
  obtain ⟨x,booted⟩ := Option.isSome_iff_exists.mp (show (boot bss (small_machine [])).isSome = true by decide +kernel)
  have accounted := always bss (small_machine []) ⟨rfl,rfl⟩ small_valid x ⟨x,[],booted,.done x⟩
  have clean := (boot_accounted ⟨rfl,rfl⟩ small_valid booted).mp accounted
  exact absurd clean (by decide +kernel)

end MicroOS.PmmAccounting

import MicroOS.PagingMaps

/-!
Contexts come and go: `vmm_create_context` with `vmm_clone_kernel_context`, and what
`vmm_destroy_context` gives back.
-/
namespace MicroOS.Paging
open Tasks
open Function (update update_of_ne)

/-- The pages that are given back, and nothing else changes. -/
structure Frees (m m' : Memory) (gone : Nat → Prop) : Prop where
  word : m'.word = m.word
  kernel_context : m'.kernel_context = m.kernel_context
  mask : m'.pmm.bitmap_pagetable_mask = m.pmm.bitmap_pagetable_mask
  used : ∀ k, Pmm.is_used m'.pmm k = true ↔ Pmm.is_used m.pmm k = true ∧ ¬ gone k

theorem frees_none (m : Memory) : Frees m m (fun _ => False) := ⟨rfl,rfl,rfl,fun _ => ⟨fun used => ⟨used,id⟩,And.left⟩⟩

variable {m₂ m' : Memory} {gone' live : Nat → Prop}

theorem frees_trans {m₁ m₃ : Memory} {gone : Nat → Prop} (first : Frees m₁ m₂ gone) (second : Frees m₂ m₃ gone') :
    Frees m₁ m₃ (fun k => gone k ∨ gone' k) where
  word := second.word.trans first.word
  kernel_context := second.kernel_context.trans first.kernel_context
  mask := second.mask.trans first.mask
  used k := by
    rw [second.used,first.used]
    tauto

theorem frees_congr {m : Memory} {gone : Nat → Prop} (frees : Frees m m' gone) (same : ∀ k, gone k ↔ gone' k) :
    Frees m m' gone' where
  word := frees.word
  kernel_context := frees.kernel_context
  mask := frees.mask
  used k := by rw [frees.used,same]

theorem frees_fold {m : Memory} {step : Memory → Nat → Memory} {gone : Nat → Nat → Prop}
    (frees : ∀ m' x, m'.word = m.word → m'.kernel_context = m.kernel_context → Frees m' (step m' x) (gone x))
    (l : List Nat) (m₁ : Memory) (word : m₁.word = m.word) (kernel : m₁.kernel_context = m.kernel_context) :
    Frees m₁ (l.foldl step m₁) (fun k => ∃ x ∈ l, gone x k) := by
  induction l generalizing m₁ with
  | nil =>
    refine frees_congr (frees_none m₁) ?_
    intro k
    constructor
    · exact False.elim
    · rintro ⟨x,member,-⟩
      cases member
  | cons x rest ih =>
    have first := frees m₁ x word kernel
    have later := ih (step m₁ x) (first.word.trans word) (first.kernel_context.trans kernel)
    refine frees_congr (frees_trans first later) ?_
    intro k
    constructor
    · rintro (head | ⟨y,member,tail⟩)
      · exact ⟨x,List.mem_cons_self,head⟩
      · exact ⟨y,List.mem_cons_of_mem _ member,tail⟩
    · rintro ⟨y,member,is⟩
      cases List.mem_cons.mp member with
      | inl here =>
        rw [here] at is
        exact .inl is
      | inr later => exact .inr ⟨y,later,is⟩

theorem frees_page (m : Memory) (page : Nat) : Frees m (free_page m page) (fun k => k = page) := by
  refine ⟨rfl,rfl,rfl,?_⟩
  intro k
  show Pmm.bitmap_test (Pmm.bitmap_clear m.pmm.bitmap (page * 0x1000 / 4096)) k = true ↔ _
  rw [Pmm.bitmap_test_clear,Nat.mul_div_cancel _ (by decide)]
  simp [Pmm.is_used]

/-- The pages that destroying a context gives back. -/
def Gone (m : Memory) (c k : Nat) : Prop :=
  (∃ i < 1024, (pde m c i).flags.present = true ∧
    ((∃ j < 1024, (pte m c i j).flags.present = true ∧ ¬ KernelPage m i j ∧ k = (pte m c i j).frame) ∨
      (pde m m.kernel_context i).flags.present = false ∧ k = (pde m c i).frame)) ∨ k = pagedir m c ∨ k = c

section
variable {m m' : Memory} (word : m'.word = m.word)
include word

theorem pagedir_word (c : Nat) : pagedir m' c = pagedir m c := by
  unfold pagedir
  rw [word]

theorem pde_word (c i : Nat) : pde m' c i = pde m c i := by
  unfold pde
  rw [pagedir_word word,word]

theorem pte_word (c i j : Nat) : pte m' c i j = pte m c i j := by
  unfold pte
  rw [pde_word word,word]

theorem kernelPage_word (kernel : m'.kernel_context = m.kernel_context) (i j : Nat) :
    KernelPage m' i j ↔ KernelPage m i j := by
  unfold KernelPage
  rw [kernel,pde_word word,pte_word word]

theorem frees_destroy_page (kernel : m'.kernel_context = m.kernel_context)
    (c i j : Nat) : Frees m' (destroy_page c i m' j)
      (fun k => (pte m c i j).flags.present = true ∧ ¬ KernelPage m i j ∧ k = (pte m c i j).frame) := by
  unfold destroy_page
  rw [pte_word word,pte_word word,pde_word word,kernel]
  by_cases present : (pte m c i j).flags.present = true
  · rw [if_pos present]
    by_cases shared : KernelPage m i j
    · rw [if_pos (show (pde m m.kernel_context i).flags.present = true ∧ (pte m m.kernel_context i j).flags.present = true
        from shared)]
      exact frees_congr (frees_none m') (fun k => ⟨False.elim,fun all => absurd shared all.2.1⟩)
    · rw [if_neg (show ¬ ((pde m m.kernel_context i).flags.present = true ∧ (pte m m.kernel_context i j).flags.present = true)
        from shared)]
      exact frees_congr (frees_page m' _) (fun k => ⟨fun here => ⟨present,shared,here⟩,fun all => all.2.2⟩)
  · rw [if_neg present]
    exact frees_congr (frees_none m') (fun k => ⟨False.elim,fun all => absurd all.1 present⟩)

theorem frees_destroy_table (kernel : m'.kernel_context = m.kernel_context)
    (c i : Nat) : Frees m' (destroy_table c m' i) (fun k => (pde m c i).flags.present = true ∧
      ((∃ j < 1024, (pte m c i j).flags.present = true ∧ ¬ KernelPage m i j ∧ k = (pte m c i j).frame) ∨
        (pde m m.kernel_context i).flags.present = false ∧ k = (pde m c i).frame)) := by
  unfold destroy_table
  rw [pde_word word]
  by_cases present : (pde m c i).flags.present = true
  · rw [if_pos present]
    have inner := @frees_fold m (destroy_page c i)
      (fun j k => (pte m c i j).flags.present = true ∧ ¬ KernelPage m i j ∧ k = (pte m c i j).frame)
      (fun m₁ j word kernel => frees_destroy_page word kernel c i j) indices m' word kernel
    have same_word := inner.word.trans word
    have same_kernel := inner.kernel_context.trans kernel
    dsimp only
    rw [same_kernel,pde_word same_word,pde_word same_word]
    by_cases there : (pde m m.kernel_context i).flags.present = true
    · rw [if_pos there]
      refine frees_congr inner ?_
      intro k
      constructor
      · rintro ⟨j,member,all⟩
        exact ⟨present,.inl ⟨j,mem_indices.mp member,all⟩⟩
      · rintro ⟨-,⟨j,small,all⟩ | ⟨absent,-⟩⟩
        · exact ⟨j,mem_indices.mpr small,all⟩
        · rw [there] at absent
          cases absent
    · rw [if_neg there]
      refine frees_congr (frees_trans inner (frees_page _ _)) ?_
      intro k
      constructor
      · rintro (⟨j,member,all⟩ | here)
        · exact ⟨present,.inl ⟨j,mem_indices.mp member,all⟩⟩
        · exact ⟨present,.inr ⟨by simpa using there,here⟩⟩
      · rintro ⟨-,⟨j,small,all⟩ | ⟨-,here⟩⟩
        · exact .inl ⟨j,mem_indices.mpr small,all⟩
        · exact .inr here
  · rw [if_neg present]
    exact frees_congr (frees_none m') (fun k => ⟨False.elim,fun all => absurd all.1 present⟩)

end

theorem frees_destroy (m : Memory) (c : Nat) : Frees m (vmm_destroy_context m c) (Gone m c) := by
  unfold vmm_destroy_context
  have tables := @frees_fold m (destroy_table c) _ (fun m₁ i word kernel => frees_destroy_table word kernel c i)
    indices m rfl rfl
  have dir : pagedir (indices.foldl (destroy_table c) m) c = pagedir m c := pagedir_word tables.word c
  dsimp only
  rw [dir]
  refine frees_congr (frees_trans (frees_trans tables (frees_page _ _)) (frees_page _ _)) ?_
  intro k
  unfold Gone
  constructor
  · rintro ((⟨i,member,all⟩ | here) | here)
    · exact .inl ⟨i,mem_indices.mp member,all⟩
    · exact .inr (.inl here)
    · exact .inr (.inr here)
  · rintro (⟨i,below,all⟩ | here | here)
    · exact .inl (.inl ⟨i,mem_indices.mpr below,all⟩)
    · exact .inl (.inr here)
    · exact .inr here

def About (c : Nat) : Label → Prop
  | .context c' => c' = c
  | .dir c' => c' = c
  | .kernel _ => False
  | .table c' _ => c' = c

open Classical in
/-- Pages of the pool are given back only when they are of a context that is not live any more. -/
theorem tables_frees {live' : Nat → Prop} {m : Memory} {gone : Nat → Prop} (tables : Tables live m)
    (frees : Frees m m' gone) (sub : ∀ c, live' c → live c) (kernel : live' m.kernel_context)
    (safe : ∀ label, Labels live m label → ∀ k, gone k →
      Pmm.in_pool m.pmm k = false ∨ ∃ c l, ¬ live' c ∧ label k = some l ∧ About c l) : Tables live' m' := by
  obtain ⟨label,labels⟩ := tables.labels
  have dirs (c : Nat) : pagedir m' c = pagedir m c := pagedir_word frees.word c
  let dead (k : Nat) : Prop := ∃ c l, ¬ live' c ∧ label k = some l ∧ About c l
  have stays {k : Nat} {l : Label} (labelled : label k = some l) (alive : ∀ c, ¬ live' c → ¬ About c l) :
      (if dead k then none else label k) = some l := by
    rw [if_neg,labelled]
    rintro ⟨c,l',not_live,same,about⟩
    rw [labelled] at same
    rw [← Option.some.inj same] at about
    exact alive c not_live about
  refine ⟨⟨fun k => if dead k then none else label k,?_,?_,?_,?_,?_,?_⟩,?_⟩
  · rw [frees.kernel_context]
    exact kernel
  · intro c is
    refine stays (labels.context c (sub c is)) ?_
    intro c' not_live about
    exact not_live (by rw [← show c = c' from about]; exact is)
  · intro c is
    rw [dirs]
    refine stays (labels.dir c (sub c is)) ?_
    intro c' not_live about
    exact not_live (by rw [← show c = c' from about]; exact is)
  · intro i there
    rw [frees.kernel_context,pde_word frees.word] at there ⊢
    exact stays (labels.kernel i there) (fun _ _ about => about)
  · intro c i is there
    rw [pde_word frees.word] at there
    rw [frees.kernel_context,pde_word frees.word,pde_word frees.word]
    cases labels.table c i (sub c is) there with
    | inl shared => exact .inl shared
    | inr own =>
      refine .inr (stays own ?_)
      intro c' not_live about
      exact not_live (by rw [← show c = c' from about]; exact is)
  · intro k l labelled
    by_cases is_dead : dead k
    · rw [if_pos is_dead] at labelled
      cases labelled
    · rw [if_neg is_dead] at labelled
      obtain ⟨is_used,is_pool⟩ := labels.stored k l labelled
      rw [pool_mask frees.mask]
      refine ⟨(frees.used k).mpr ⟨is_used,?_⟩,is_pool⟩
      intro is_gone
      cases safe label labels k is_gone with
      | inl outside =>
        rw [is_pool] at outside
        cases outside
      | inr dead => exact is_dead dead
  · intro c i j is private_ mapped
    rw [pte_word frees.word] at mapped ⊢
    rw [pool_mask frees.mask,kernelPage_word frees.word frees.kernel_context]
    refine tables.outside c i j (sub c is) ?_ mapped
    unfold Private at private_ ⊢
    rw [frees.kernel_context,pde_word frees.word,pde_word frees.word] at private_
    exact private_

/-- What destroying a context gives back is its own or outside of the pool. -/
theorem gone_safe {live live' : Nat → Prop} {m : Memory} {c k : Nat} {label : Nat → Option Label} (tables : Tables live m)
    (labels : Labels live m label) (is : live c) (dies : ¬ live' c) (gone : Gone m c k) :
    Pmm.in_pool m.pmm k = false ∨ ∃ c l, ¬ live' c ∧ label k = some l ∧ About c l := by
  rcases gone with ⟨i,-,present,⟨j,-,mapped,other,here⟩ | ⟨absent,here⟩⟩ | here | here
  · by_cases shared : pde m c i = pde m m.kernel_context i
    · refine absurd ⟨by rw [← shared]; exact present,?_⟩ other
      unfold pte
      rw [← shared]
      exact mapped
    · cases tables.outside c i j is ⟨present,shared⟩ mapped with
      | inl outside => exact .inl (by rw [here]; exact outside)
      | inr kernel => exact absurd kernel other
  · cases labels.table c i is present with
    | inl shared =>
      rw [shared,absent] at present
      cases present
    | inr own => exact .inr ⟨c,.table c i,dies,by rw [here]; exact own,rfl⟩
  · exact .inr ⟨c,.dir c,dies,by rw [here]; exact labels.dir c is,rfl⟩
  · exact .inr ⟨c,.context c,dies,by rw [here]; exact labels.context c is,rfl⟩

def With (live : Nat → Prop) (c x : Nat) : Prop := live x ∨ x = c

/-- A new context `c` with the directory entries that `entry` gives; nothing else changes. -/
structure NewContext (live : Nat → Prop) (m : Memory) (c : Nat) (entry : Nat → Entry) (m' : Memory) : Prop where
  fresh : ¬ live c
  tables : Tables (With live c) m'
  kept : Kept live m m'
  mask : m'.pmm.bitmap_pagetable_mask = m.pmm.bitmap_pagetable_mask
  pdes : ∀ x i, live x → pde m' x i = pde m x i
  ptes : ∀ x i j, live x → (pde m x i).flags.present = true → pte m' x i j = pte m x i j
  entries : ∀ i, pde m' c i = entry i

/-- What a context that was there before maps in a private table. -/
theorem outside_kept {m : Memory} (tables : Tables live m) (kernel : m'.kernel_context = m.kernel_context)
    (mask : m'.pmm.bitmap_pagetable_mask = m.pmm.bitmap_pagetable_mask) (pdes : ∀ x i, live x → pde m' x i = pde m x i)
    (ptes : ∀ x i j, live x → (pde m x i).flags.present = true → pte m' x i j = pte m x i j) {x i j : Nat} (is : live x)
    (private_ : Private m' x i) (mapped : (pte m' x i j).flags.present = true) :
    Pmm.in_pool m'.pmm (pte m' x i j).frame = false ∨ KernelPage m' i j := by
  have kernel_live := tables.labels.choose_spec.kernel_live
  unfold Private at private_
  rw [kernel,pdes x i is,pdes _ i kernel_live] at private_
  rw [ptes x i j is private_.1] at mapped ⊢
  rw [pool_mask mask]
  refine (tables.outside x i j is private_ mapped).imp id ?_
  intro both
  rw [KernelPage,kernel,pdes _ i kernel_live,ptes _ i j kernel_live both.1]
  exact both

theorem create_spec {live : Nat → Prop} {m m' : Memory} {c : Nat} (tables : Tables live m)
    (created : vmm_create_context m = some (m',c)) : NewContext live m c (fun _ => zero) m' := by
  obtain ⟨label,labels⟩ := tables.labels
  unfold vmm_create_context at created
  cases first : alloc_pagetable m with
  | none =>
    rw [first] at created
    cases created
  | some r =>
    obtain ⟨m₁,context⟩ := r
    rw [first] at created
    dsimp only at created
    cases second : alloc_pagetable m₁ with
    | none =>
      rw [second] at created
      cases created
    | some r =>
      obtain ⟨m₂,dir⟩ := r
      rw [second] at created
      obtain ⟨rfl,rfl⟩ := Prod.mk.inj (Option.some.inj created)
      obtain ⟨word₁,kernel₁,free₁,pool₁,mask₁,used₁⟩ := alloc_pagetable_spec first
      obtain ⟨word₂,kernel₂,free₂,pool₂,mask₂,used₂⟩ := alloc_pagetable_spec second
      have other : dir ≠ context := by
        intro same
        rw [same,used₁] at free₂
        simp at free₂
      have free_dir : Pmm.is_used m.pmm dir = false := by
        rw [used₁] at free₂
        simpa [other] using free₂
      have pool_dir : Pmm.in_pool m.pmm dir = true := by
        rw [← pool_mask mask₁]
        exact pool₂
      have fresh_context := fresh_unlabelled labels free₁
      have fresh_dir := fresh_unlabelled labels free_dir
      let m' := clear (store m₂ context 0 ⟨dir,zero.flags⟩) dir
      have word (p k : Nat) : m'.word p k = if p = dir then zero else if p = context ∧ k = 0 then ⟨dir,zero.flags⟩ else m.word p k := by
        show (clear (store m₂ context 0 ⟨dir,zero.flags⟩) dir).word p k = _
        rw [clear_word,store_word,word₂,word₁]
      have kernel : m'.kernel_context = m.kernel_context := kernel₂.trans kernel₁
      have mask : m'.pmm.bitmap_pagetable_mask = m.pmm.bitmap_pagetable_mask := mask₂.trans mask₁
      have used (k : Nat) : Pmm.is_used m'.pmm k = (Pmm.is_used m.pmm k || decide (k = context ∨ k = dir)) := by
        show Pmm.is_used m₂.pmm k = _
        rw [used₂,used₁,Bool.or_assoc,Bool.decide_or]
      have ne_context {x : Nat} {l : Label} (labelled : label x = some l) : x ≠ context := fresh_ne fresh_context labelled
      have ne_dir {x : Nat} {l : Label} (labelled : label x = some l) : x ≠ dir := fresh_ne fresh_dir labelled
      have old_word {p : Nat} {l : Label} (labelled : label p = some l) (k : Nat) : m'.word p k = m.word p k := by
        rw [word,if_neg (ne_dir labelled),if_neg (fun both => ne_context labelled both.1)]
      have dirs (x : Nat) (is : live x) : pagedir m' x = pagedir m x := by
        unfold pagedir
        rw [old_word (labels.context x is)]
      have new_dir : pagedir m' context = dir := by
        unfold pagedir
        rw [word,if_neg other.symm,if_pos ⟨rfl,rfl⟩]
      have pdes (x i : Nat) (is : live x) : pde m' x i = pde m x i := by
        unfold pde
        rw [dirs x is,old_word (labels.dir x is)]
      have entries (i : Nat) : pde m' context i = zero := by
        unfold pde
        rw [new_dir,word,if_pos rfl]
      have ptes (x i j : Nat) (is : live x) (present : (pde m x i).flags.present = true) : pte m' x i j = pte m x i j := by
        unfold pte
        rw [pdes x i is]
        cases table_label labels is present with
        | inl shared => exact old_word shared j
        | inr own => exact old_word own j
      have not_live : ¬ live context := by
        intro is
        have labelled := labels.context context is
        rw [fresh_context] at labelled
        cases labelled
      have kernel_live := labels.kernel_live
      have old {x : Nat} {l : Label} (labelled : label x = some l) :
          update (update label context (some (.context context))) dir (some (.dir context)) x = some l := by
        rw [update_of_ne (ne_dir labelled),update_of_ne (ne_context labelled)]
        exact labelled
      have absent {i : Nat} (there : (pde m' context i).flags.present = true) : False := by
        rw [entries] at there
        cases there
      let label' := update (update label context (some (.context context))) dir (some (.dir context))
      have at_dir : label' dir = some (.dir context) := Function.update_self ..
      have at_context : label' context = some (.context context) := by
        show update _ dir _ context = _
        rw [update_of_ne other.symm,Function.update_self]
      have elsewhere {x : Nat} (not_dir : x ≠ dir) (not_context : x ≠ context) : label' x = label x := by
        show update _ dir _ x = _
        rw [update_of_ne not_dir,update_of_ne not_context]
      refine ⟨not_live,⟨⟨label',?_,?_,?_,?_,?_,?_⟩,?_⟩,⟨kernel,dirs⟩,mask,pdes,ptes,entries⟩
      · exact .inl (by rw [kernel]; exact kernel_live)
      · intro x is
        rcases is with is | here
        · exact old (labels.context x is)
        · rw [here]
          exact at_context
      · intro x is
        rcases is with is | here
        · rw [dirs x is]
          exact old (labels.dir x is)
        · rw [here,new_dir]
          exact at_dir
      · intro i there
        rw [kernel,pdes _ i kernel_live] at there ⊢
        exact old (labels.kernel i there)
      · intro x i is there
        rcases is with is | here
        · rw [pdes x i is] at there
          rw [kernel,pdes x i is,pdes _ i kernel_live]
          exact (labels.table x i is there).imp id old
        · rw [here] at there
          exact absurd there absent
      · intro x l labelled
        rw [pool_mask mask,used]
        by_cases is_dir : x = dir
        · rw [is_dir]
          exact ⟨by simp,pool_dir⟩
        · by_cases is_context : x = context
          · rw [is_context]
            exact ⟨by simp,pool₁⟩
          · rw [elsewhere is_dir is_context] at labelled
            obtain ⟨is_used,is_pool⟩ := labels.stored x l labelled
            exact ⟨by rw [is_used]; rfl,is_pool⟩
      · intro x i j is private_ mapped
        rcases is with is | here
        · exact outside_kept tables kernel mask pdes ptes is private_ mapped
        · rw [here] at private_
          exact absurd private_.1 absent

/-- The entries of the kernel that go into a new directory. -/
def cloned (m : Memory) (i : Nat) : Entry :=
  if i < 1024 ∧ (pde m m.kernel_context i).flags.present = true then pde m m.kernel_context i else zero

theorem clone_word {c kernel dir kernel_dir : Nat} (own : c ≠ dir) (other : kernel ≠ dir) (apart : kernel_dir ≠ dir)
    (ks : List Nat) (m : Memory) (is : m.kernel_context = kernel) (at_dir : pagedir m c = dir)
    (at_kernel : pagedir m kernel = kernel_dir) :
    let m' := ks.foldl (fun m i => if (pde m m.kernel_context i).flags.present then
      store m (pagedir m c) i (pde m m.kernel_context i) else m) m
    m'.pmm = m.pmm ∧ m'.kernel_context = m.kernel_context ∧ ∀ p k, m'.word p k =
      if p = dir ∧ k ∈ ks ∧ (m.word kernel_dir k).flags.present = true then m.word kernel_dir k else m.word p k := by
  induction ks using List.reverseRecOn with
  | nil => exact ⟨rfl,rfl,fun p k => (if_neg (by simp)).symm⟩
  | append_singleton ks k₀ ih =>
    dsimp only at ih ⊢
    rw [List.foldl_append,List.foldl_cons,List.foldl_nil]
    generalize ks.foldl _ m = m₁ at ih ⊢
    obtain ⟨pmm,same,words⟩ := ih
    have elsewhere {p : Nat} (away : p ≠ dir) (k : Nat) : m₁.word p k = m.word p k := by
      rw [words,if_neg (fun all => away all.1)]
    have entry : pde m₁ m₁.kernel_context k₀ = m.word kernel_dir k₀ := by
      unfold pde pagedir
      rw [same,is,elsewhere other,show (m.word kernel 0).frame = kernel_dir from at_kernel,elsewhere apart]
    have place : pagedir m₁ c = dir := by
      unfold pagedir
      rw [elsewhere own]
      exact at_dir
    rw [entry,place]
    by_cases present : (m.word kernel_dir k₀).flags.present = true
    · rw [if_pos present]
      refine ⟨pmm,same,fun p k => ?_⟩
      rw [store_word,words]
      by_cases last : p = dir ∧ k = k₀
      · rw [if_pos last,last.2,if_pos ⟨last.1,by simp,present⟩]
      · rw [if_neg last]
        exact if_congr (by grind) rfl rfl
    · rw [if_neg present]
      refine ⟨pmm,same,fun p k => ?_⟩
      rw [words]
      exact if_congr (by grind) rfl rfl

/-- Unfolded in a rewrite only, as the loop is over a list that computes. -/
theorem vmm_clone_kernel_context_eq (m : Memory) (c : Nat) : vmm_clone_kernel_context m c = indices.foldl (fun m i =>
    if (pde m m.kernel_context i).flags.present then store m (pagedir m c) i (pde m m.kernel_context i) else m) m := rfl

theorem vmm_clone_kernel_context_spec {m : Memory} {c : Nat} (own : c ≠ pagedir m c) (other : m.kernel_context ≠ pagedir m c)
    (apart : pagedir m m.kernel_context ≠ pagedir m c) : (vmm_clone_kernel_context m c).pmm = m.pmm ∧
      (vmm_clone_kernel_context m c).kernel_context = m.kernel_context ∧ ∀ p k, (vmm_clone_kernel_context m c).word p k =
        if p = pagedir m c ∧ k < 1024 ∧ (pde m m.kernel_context k).flags.present = true then pde m m.kernel_context k
        else m.word p k := by
  obtain ⟨pmm,kernel,words⟩ := clone_word own other apart indices m rfl rfl rfl
  rw [vmm_clone_kernel_context_eq]
  refine ⟨pmm,kernel,?_⟩
  intro p k
  rw [words]
  exact if_congr (and_congr_right' (and_congr_left' mem_indices)) rfl rfl

/-- A created context with the kernel's entries in its directory. -/
theorem new_context_of_words {m m₁ : Memory} {c : Nat} (kernel_live : live m.kernel_context)
    (made : NewContext live m c (fun _ => zero) m₁) {label : Nat → Option Label} (labels : Labels (With live c) m₁ label)
    (pmm : m₂.pmm = m₁.pmm) (kernel : m₂.kernel_context = m₁.kernel_context) (words : ∀ p k, m₂.word p k =
      if p = pagedir m₁ c ∧ k < 1024 ∧ (pde m₁ m₁.kernel_context k).flags.present = true then pde m₁ m₁.kernel_context k
      else m₁.word p k) (outside : Tables live m) : NewContext live m c (cloned m) m₂ := by
  have is : With live c c := .inr rfl
  have kernel₁ := made.kept.kernel_context
  have with_kernel : With live c m₁.kernel_context := labels.kernel_live
  have not_kernel : m₁.kernel_context ≠ c := by
    intro same
    rw [kernel₁] at same
    exact made.fresh (by rw [← same]; exact kernel_live)
  have old {p : Nat} (other : p ≠ pagedir m₁ c) (k : Nat) : m₂.word p k = m₁.word p k := by
    rw [words,if_neg (fun all => other all.1)]
  have dirs (x : Nat) (there : With live c x) : pagedir m₂ x = pagedir m₁ x := by
    unfold pagedir
    rw [old (context_ne_dir labels there is)]
  have pdes (x i : Nat) (there : With live c x) (other : x ≠ c) : pde m₂ x i = pde m₁ x i := by
    unfold pde
    rw [dirs x there,old (fun same => other (dir_inj labels there is same))]
  have entries (i : Nat) : pde m₂ c i = cloned m i := by
    have kernel_entry : pde m₁ m₁.kernel_context i = pde m m.kernel_context i := by
      rw [← made.pdes _ i kernel_live,← kernel₁]
    have empty : m₁.word (pagedir m₁ c) i = zero := made.entries i
    unfold pde cloned
    rw [dirs c is,words,kernel_entry,empty]
    by_cases both : i < 1024 ∧ (pde m m.kernel_context i).flags.present = true
    · rw [if_pos ⟨rfl,both⟩,if_pos both]
    · rw [if_neg (fun all => both all.2),if_neg both]
  have ptes (x i j : Nat) (there : live x) (present : (pde m x i).flags.present = true) : pte m₂ x i j = pte m x i j := by
    have other : x ≠ c := fun same => made.fresh (by rw [← same]; exact there)
    have present₁ : (pde m₁ x i).flags.present = true := by
      rw [made.pdes x i there]
      exact present
    rw [← made.ptes x i j there present]
    unfold pte
    rw [pdes x i (.inl there) other,old (table_ne_dir labels (.inl there) is present₁)]
  have pdes_live (x i : Nat) (there : live x) : pde m₂ x i = pde m x i := by
    rw [pdes x i (.inl there) (fun same => made.fresh (by rw [← same]; exact there)),made.pdes x i there]
  have kernel₂ : m₂.kernel_context = m.kernel_context := kernel.trans kernel₁
  have shared (i : Nat) (there : (pde m₂ c i).flags.present = true) : pde m₂ c i = pde m₂ m₂.kernel_context i := by
    rw [kernel₂,pdes_live _ i kernel_live,entries]
    rw [entries] at there
    unfold cloned at there ⊢
    split at there
    · next both => rw [if_pos both]
    · cases there
  refine ⟨made.fresh,⟨⟨label,?_,labels.context,?_,?_,?_,?_⟩,?_⟩,⟨kernel₂,?_⟩,?_,pdes_live,ptes,entries⟩
  · rw [kernel]
    exact with_kernel
  · intro x there
    rw [dirs x there]
    exact labels.dir x there
  · intro i there
    rw [kernel,pdes _ i with_kernel not_kernel] at there ⊢
    exact labels.kernel i there
  · intro x i there present
    by_cases here : x = c
    · rw [here] at present ⊢
      exact .inl (shared i present)
    · rw [pdes x i there here] at present
      rw [kernel,pdes x i there here,pdes _ i with_kernel not_kernel]
      exact labels.table x i there present
  · rw [pmm]
    exact labels.stored
  · intro x i j there private_ mapped
    rcases there with there | here
    · exact outside_kept outside kernel₂ (by rw [pmm]; exact made.mask) pdes_live ptes there private_ mapped
    · rw [here] at private_
      exact absurd (shared i private_.1) private_.2
  · intro x there
    rw [dirs x (.inl there),made.kept.pagedir x there]
  · rw [pmm]
    exact made.mask

/-- A context as `init_task` makes it for a process. -/
theorem new_context_spec {m m₁ : Memory} {c : Nat} (tables : Tables live m)
    (created : vmm_create_context m = some (m₁,c)) :
    NewContext live m c (cloned m) (vmm_clone_kernel_context m₁ c) := by
  have made := create_spec tables created
  obtain ⟨label,labels⟩ := made.tables.labels
  have kernel_live : live m.kernel_context := tables.labels.choose_spec.kernel_live
  have is : With live c c := .inr rfl
  have with_kernel : With live c m₁.kernel_context := labels.kernel_live
  have not_kernel : m₁.kernel_context ≠ c := by
    intro same
    rw [made.kept.kernel_context] at same
    exact made.fresh (by rw [← same]; exact kernel_live)
  have apart : pagedir m₁ m₁.kernel_context ≠ pagedir m₁ c := fun same => not_kernel (dir_inj labels with_kernel is same)
  obtain ⟨pmm,kernel,words⟩ :=
    vmm_clone_kernel_context_spec (context_ne_dir labels is is) (context_ne_dir labels with_kernel is) apart
  exact new_context_of_words kernel_live made labels pmm kernel words tables

end MicroOS.Paging

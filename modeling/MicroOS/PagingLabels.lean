import MicroOS.Paging

/-!
What the pages of the pool are used for. Contexts, directories and tables of the live
contexts are pairwise different pages, save for the kernel's tables that a directory
shares, so a store into one of them changes no other.
-/
namespace MicroOS.Paging
open Tasks
open Function (update update_of_ne update_self)

inductive Label
  | context (c : Nat)
  | dir (c : Nat)
  | kernel (i : Nat)
  | table (c i : Nat)

/-- Each page has at most one label, and the live contexts agree with the labels. -/
structure Labels (live : Nat → Prop) (m : Memory) (label : Nat → Option Label) : Prop where
  kernel_live : live m.kernel_context
  context : ∀ c, live c → label c = some (.context c)
  dir : ∀ c, live c → label (pagedir m c) = some (.dir c)
  kernel : ∀ i, (pde m m.kernel_context i).flags.present = true → label (pde m m.kernel_context i).frame = some (.kernel i)
  table : ∀ c i, live c → (pde m c i).flags.present = true → pde m c i = pde m m.kernel_context i ∨
    label (pde m c i).frame = some (.table c i)
  stored : ∀ f l, label f = some l → Pmm.is_used m.pmm f = true ∧ Pmm.in_pool m.pmm f = true

/-- A mapping changes no context and no directory's place. -/
structure Kept (live : Nat → Prop) (m m' : Memory) : Prop where
  kernel_context : m'.kernel_context = m.kernel_context
  pagedir : ∀ c, live c → pagedir m' c = pagedir m c

/-- What mapping the entry `e` at the word `j` of the table `i` of the context `c` does. It
    takes a page for the table if there is none, and then that goes to all `targets`. -/
inductive Maps (live targets : Nat → Prop) (m : Memory) (c i j : Nat) (e : Entry) (m' : Memory) : Prop
  | write (present : (pde m c i).flags.present = true) (pmm : m'.pmm = m.pmm)
      (pdes : ∀ c' i', live c' → pde m' c' i' = pde m c' i')
      (ptes : ∀ c' i' j', live c' → (pde m c' i').flags.present = true →
        pte m' c' i' j' = if (pde m c' i').frame = (pde m c i).frame ∧ j' = j then e else pte m c' i' j') :
      Maps live targets m c i j e m'
  | grow (f : Nat) (flags : Flags) (present : flags.present = true) (absent : (pde m c i).flags.present = false)
      (free : Pmm.is_used m.pmm f = false) (pool : Pmm.in_pool m.pmm f = true)
      (mask : m'.pmm.bitmap_pagetable_mask = m.pmm.bitmap_pagetable_mask)
      (used : ∀ k, Pmm.is_used m'.pmm k = (Pmm.is_used m.pmm k || decide (k = f)))
      (target : targets c)
      (pde_target : ∀ c', live c' → targets c' → pde m' c' i = ⟨f,flags⟩)
      (pde_other : ∀ c' i', live c' → (targets c' → i' ≠ i) → pde m' c' i' = pde m c' i')
      (pte_target : ∀ c' j', live c' → targets c' → pte m' c' i j' = if j' = j then e else zero)
      (pte_other : ∀ c' i' j', live c' → (targets c' → i' ≠ i) → (pde m c' i').flags.present = true →
        pte m' c' i' j' = pte m c' i' j') :
      Maps live targets m c i j e m'

theorem store_word (m : Memory) (page index : Nat) (e : Entry) (p j : Nat) :
    (store m page index e).word p j = if p = page ∧ j = index then e else m.word p j := by
  unfold store
  dsimp only
  by_cases here : p = page
  · rw [here,update_self]
    by_cases there : j = index
    · rw [there,update_self,if_pos ⟨rfl,rfl⟩]
    · rw [update_of_ne there,if_neg (fun both => there both.2)]
  · rw [update_of_ne here,if_neg (fun both => here both.1)]

theorem clear_word (m : Memory) (page p j : Nat) : (clear m page).word p j = if p = page then zero else m.word p j := by
  unfold clear
  dsimp only
  by_cases here : p = page
  · rw [here,update_self,if_pos rfl]
  · rw [update_of_ne here,if_neg here]

theorem store_other (m : Memory) {page p : Nat} (other : p ≠ page) (index : Nat) (e : Entry) (j : Nat) :
    (store m page index e).word p j = m.word p j := by
  rw [store_word,if_neg (fun both => other both.1)]

section
variable {live : Nat → Prop} {m : Memory} {label : Nat → Option Label}

/-- Pages with different labels are different. -/
theorem label_ne {l l' : Label} {f f' : Nat} (is : label f = some l) (is' : label f' = some l') (other : l ≠ l') : f ≠ f' := by
  intro same
  rw [same,is'] at is
  exact other (Option.some.inj is).symm

section
variable (labels : Labels live m label)
include labels

theorem context_ne_dir {c c' : Nat} (is : live c) (is' : live c') : c ≠ pagedir m c' :=
  label_ne (labels.context c is) (labels.dir c' is') (by intro same; cases same)

theorem dir_inj {c c' : Nat} (is : live c) (is' : live c') (same : pagedir m c = pagedir m c') : c = c' := by
  have first := labels.dir c is
  rw [same,labels.dir c' is'] at first
  cases Option.some.inj first
  rfl

/-- The label of a table. -/
theorem table_label {c i : Nat} (is : live c) (present : (pde m c i).flags.present = true) :
    label (pde m c i).frame = some (.kernel i) ∨ label (pde m c i).frame = some (.table c i) := by
  cases labels.table c i is present with
  | inl shared =>
    rw [shared] at present ⊢
    exact .inl (labels.kernel i present)
  | inr own => exact .inr own

theorem table_ne_dir {c c' i : Nat} (is : live c) (is' : live c')
    (present : (pde m c i).flags.present = true) : (pde m c i).frame ≠ pagedir m c' := by
  cases table_label labels is present with
  | inl kernel => exact label_ne kernel (labels.dir c' is') (by intro same; cases same)
  | inr own => exact label_ne own (labels.dir c' is') (by intro same; cases same)

/-- One table stands at one index only. -/
theorem table_index {c c' i i' : Nat} (is : live c) (is' : live c')
    (present : (pde m c i).flags.present = true) (present' : (pde m c' i').flags.present = true)
    (same : (pde m c i).frame = (pde m c' i').frame) : i = i' := by
  have first := table_label labels is present
  have second := table_label labels is' present'
  rw [same] at first
  rcases first with first | first <;> rcases second with second | second <;> rw [first] at second <;> cases second <;> rfl

theorem fresh_unlabelled {f : Nat} (free : Pmm.is_used m.pmm f = false) : label f = none := by
  cases is : label f with
  | none => rfl
  | some l =>
    have used := (labels.stored f l is).1
    rw [free] at used
    cases used

end

theorem fresh_ne {x f : Nat} {l : Label} (fresh : label f = none) (labelled : label x = some l) : x ≠ f := by
  intro here
  rw [here,fresh] at labelled
  cases labelled

theorem pool_mask {m m' : Memory} (mask : m'.pmm.bitmap_pagetable_mask = m.pmm.bitmap_pagetable_mask) (k : Nat) :
    Pmm.in_pool m'.pmm k = Pmm.in_pool m.pmm k := by
  unfold Pmm.in_pool
  rw [mask]

theorem alloc_pagetable_spec {m' : Memory} {f : Nat} (allocated : alloc_pagetable m = some (m',f)) :
    m'.word = m.word ∧ m'.kernel_context = m.kernel_context ∧ Pmm.is_used m.pmm f = false ∧ Pmm.in_pool m.pmm f = true ∧
      m'.pmm.bitmap_pagetable_mask = m.pmm.bitmap_pagetable_mask ∧
      ∀ k, Pmm.is_used m'.pmm k = (Pmm.is_used m.pmm k || decide (k = f)) := by
  unfold alloc_pagetable Pmm.pmm_alloc_pagetable at allocated
  rw [Option.map_map] at allocated
  obtain ⟨i,found,taken⟩ := Option.map_eq_some_iff.mp allocated
  obtain ⟨-,-,passes,-⟩ := Pmm.first_from_some.mp found
  have kind : Pmm.is_used m.pmm i = false ∧ Pmm.in_pool m.pmm i = true := by simpa using passes
  have same : i = f := by
    have address := congrArg Prod.snd taken
    simpa [Pmm.take_pages] using address
  have memory : { m with pmm := (Pmm.take_pages m.pmm i 1).1 } = m' := congrArg Prod.fst taken
  rw [← memory,← same]
  refine ⟨rfl,rfl,kind.1,kind.2,rfl,?_⟩
  intro k
  show Pmm.is_used (Pmm.take_pages m.pmm i 1).1 k = _
  rw [Pmm.take_pages_used]
  congr 1
  rw [decide_eq_decide]
  omega

/-- A page that is a table, or has no label at all. -/
def NoDir (label : Nat → Option Label) (f : Nat) : Prop := ∀ c, label f ≠ some (.context c) ∧ label f ≠ some (.dir c)

section
variable (labels : Labels live m label) {f : Nat} (table : NoDir label f) (j : Nat) (e : Entry)
include labels table

theorem store_table_pagedir {c : Nat} (is : live c) : pagedir (store m f j e) c = pagedir m c := by
  unfold pagedir
  rw [store_other]
  intro here
  exact (table c).1 (by rw [← here]; exact labels.context c is)

theorem store_table_pde {c : Nat} (is : live c) (i : Nat) : pde (store m f j e) c i = pde m c i := by
  unfold pde
  rw [store_table_pagedir labels table j e is,store_other]
  intro here
  exact (table c).2 (by rw [← here]; exact labels.dir c is)

theorem store_table_labels : Labels live (store m f j e) label := by
  have pdes (c : Nat) (is : live c) (i : Nat) := store_table_pde labels table j e is i
  have kernel : (store m f j e).kernel_context = m.kernel_context := rfl
  refine ⟨labels.kernel_live,labels.context,?_,?_,?_,labels.stored⟩
  · intro c is
    rw [store_table_pagedir labels table j e is]
    exact labels.dir c is
  · intro i present
    rw [kernel,pdes _ labels.kernel_live] at present ⊢
    exact labels.kernel i present
  · intro c i is present
    rw [pdes c is] at present
    rw [pdes c is,kernel,pdes _ labels.kernel_live]
    exact labels.table c i is present

end

theorem table_nodir (labels : Labels live m label) {c i : Nat} (is : live c) (present : (pde m c i).flags.present = true) :
    NoDir label (pde m c i).frame := by
  intro c'
  cases table_label labels is present with
  | inl kernel =>
    rw [kernel]
    constructor <;> (intro same; cases same)
  | inr own =>
    rw [own]
    constructor <;> (intro same; cases same)

theorem push_word (tasks : Nat → Task) (dir i : Nat) (e : Entry) (ts : List Nat) (m : Memory) (here : m.word dir i = e)
    (apart : ∀ t u, (tasks t).active = true → (tasks u).active = true → (tasks u).context ≠ pagedir m (tasks t).context)
    (p j : Nat) :
    (ts.foldl (fun m t => if (tasks t).active then store m (pagedir m (tasks t).context) i (m.word dir i) else m) m).word p j =
      if j = i ∧ ∃ t ∈ ts, (tasks t).active = true ∧ pagedir m (tasks t).context = p then e else m.word p j := by
  induction ts using List.reverseRecOn generalizing p j with
  | nil => exact (if_neg (by simp)).symm
  | append_singleton ts t ih =>
    rw [List.foldl_append,List.foldl_cons,List.foldl_nil,ih dir i,here,ite_self]
    have last : (∃ u ∈ ts ++ [t], (tasks u).active = true ∧ pagedir m (tasks u).context = p) ↔
        (∃ u ∈ ts, (tasks u).active = true ∧ pagedir m (tasks u).context = p) ∨
          (tasks t).active = true ∧ pagedir m (tasks t).context = p := by
      simp [or_and_right,exists_or]
    rw [if_congr (and_congr_right' last) rfl rfl]
    by_cases active : (tasks t).active = true
    · have same : pagedir (ts.foldl (fun m t => if (tasks t).active then
          store m (pagedir m (tasks t).context) i (m.word dir i) else m) m) (tasks t).context = pagedir m (tasks t).context := by
        unfold pagedir at ih ⊢
        rw [ih,if_neg]
        rintro ⟨-,u,-,is,page⟩
        exact apart u t is active page.symm
      rw [if_pos active,store_word,same,ih]
      by_cases first : p = pagedir m (tasks t).context ∧ j = i
      · rw [if_pos first,if_pos ⟨first.2,.inr ⟨active,first.1.symm⟩⟩]
      · rw [if_neg first]
        refine if_congr (and_congr_right fun word => ?_) rfl rfl
        exact ⟨.inl,fun either => either.resolve_right fun now => first ⟨now.2.symm,word⟩⟩
    · rw [if_neg active,ih]
      simp [active]

theorem push_kept (tasks : Nat → Task) (m : Memory) (dir i : Nat) :
    (push tasks m dir i).pmm = m.pmm ∧ (push tasks m dir i).kernel_context = m.kernel_context := by
  unfold push
  generalize List.range MAX_TASKS = ts
  induction ts generalizing m with
  | nil => exact ⟨rfl,rfl⟩
  | cons t rest ih =>
    rw [List.foldl_cons]
    split
    · exact ih _
    · exact ih m

/-- The contexts that get a new table: the one that it is for, and with the kernel's also
    those of the active tasks. -/
def Pushed (tasks : Nat → Task) (kernel : Bool) (c c' : Nat) : Prop :=
  c' = c ∨ kernel = true ∧ ∃ t < MAX_TASKS, (tasks t).active = true ∧ (tasks t).context = c'

/-- A table that is there gets the entry. -/
theorem unsafe_write {tasks : Nat → Task} {c virt phys : Nat} {flags : Flags} {kernel : Bool} {m' : Memory} {targets : Nat → Prop}
    (labels : Labels live m label) (is : live c) (present : (pde m c (virt / 0x1000 / 1024)).flags.present = true)
    (mapped : vmm_map_page_unsafe tasks m (pagedir m c) kernel virt phys flags = some m') :
    Labels live m' label ∧ Kept live m m' ∧
      Maps live targets m c (virt / 0x1000 / 1024) (virt / 0x1000 % 1024) ⟨phys / 0x1000,flags⟩ m' := by
  unfold vmm_map_page_unsafe at mapped
  dsimp only at mapped
  rw [show m.word (pagedir m c) (virt / 0x1000 / 1024) = pde m c (virt / 0x1000 / 1024) from rfl,if_pos present] at mapped
  cases mapped
  have table := table_nodir labels is present
  refine ⟨store_table_labels labels table _ _,⟨rfl,?_⟩,.write present rfl ?_ ?_⟩
  · exact fun c' is' => store_table_pagedir labels table _ _ is'
  · exact fun c' i' is' => store_table_pde labels table _ _ is' i'
  · intro c' i' j' is' present'
    unfold pte
    rw [store_table_pde labels table _ _ is' i',store_word]

theorem pushed_live {tasks : Nat → Task} {c c' : Nat} {kernel : Bool} (is : live c)
    (active : ∀ t, (tasks t).active = true → live (tasks t).context) (pushed : Pushed tasks kernel c c') : live c' := by
  rcases pushed with rfl | ⟨-,t,-,alive,rfl⟩
  · exact is
  · exact active t alive

/-- The words after a table was added: `f` is the page taken for it. -/
theorem grow_word {tasks : Nat → Task} {c i j f : Nat} {e entry : Entry} {kernel : Bool} {m₁ : Memory}
    (labels : Labels live m label) (is : live c) (active : ∀ t, (tasks t).active = true → live (tasks t).context)
    (fresh : label f = none) (same : m₁.word = m.word) :
    let m' := store (if kernel then push tasks (store (clear m₁ f) (pagedir m c) i entry) (pagedir m c) i
      else store (clear m₁ f) (pagedir m c) i entry) f j e
    (∀ k, m'.word f k = if k = j then e else zero) ∧ (∀ c', Pushed tasks kernel c c' → m'.word (pagedir m c') i = entry) ∧
      ∀ p k, p ≠ f → (k = i → ∀ c', Pushed tasks kernel c c' → pagedir m c' ≠ p) → m'.word p k = m.word p k := by
  have ne_dir (c' : Nat) (is' : live c') : pagedir m c' ≠ f := fresh_ne fresh (labels.dir c' is')
  have stored (p k : Nat) : (store (clear m₁ f) (pagedir m c) i entry).word p k =
      if p = pagedir m c ∧ k = i then entry else if p = f then zero else m.word p k := by
    rw [store_word,clear_word,same]
  have dirs (c' : Nat) (is' : live c') : pagedir (store (clear m₁ f) (pagedir m c) i entry) c' = pagedir m c' := by
    unfold pagedir
    rw [show (m.word c 0).frame = pagedir m c from rfl,stored,if_neg (fun both => context_ne_dir labels is' is both.1),
      if_neg (fresh_ne fresh (labels.context c' is'))]
  have pushed (p k : Nat) : (if kernel then push tasks (store (clear m₁ f) (pagedir m c) i entry) (pagedir m c) i
      else store (clear m₁ f) (pagedir m c) i entry).word p k =
      if k = i ∧ kernel = true ∧ ∃ t ∈ List.range MAX_TASKS, (tasks t).active = true ∧ pagedir m (tasks t).context = p then entry
      else if p = pagedir m c ∧ k = i then entry else if p = f then zero else m.word p k := by
    cases kernel with
    | false =>
      rw [if_neg Bool.false_ne_true,stored]
      exact (if_neg fun all => Bool.false_ne_true all.2.1).symm
    | true =>
      rw [if_pos rfl,push,push_word tasks (pagedir m c) i entry,stored]
      · congr 1
        rw [eq_iff_iff]
        constructor
        · rintro ⟨word,t,member,alive,page⟩
          exact ⟨word,rfl,t,member,alive,by rw [← dirs _ (active t alive)]; exact page⟩
        · rintro ⟨word,-,t,member,alive,page⟩
          exact ⟨word,t,member,alive,by rw [dirs _ (active t alive)]; exact page⟩
      · rw [stored,if_pos ⟨rfl,rfl⟩]
      · intro t u alive alive'
        rw [dirs _ (active t alive)]
        exact context_ne_dir labels (active u alive') (active t alive)
  refine ⟨fun k => ?_,fun c' target => ?_,fun p k other none => ?_⟩
  · rw [store_word]
    by_cases word : k = j
    · rw [if_pos ⟨rfl,word⟩,if_pos word]
    · rw [if_neg (fun both => word both.2),if_neg word,pushed,if_neg,if_neg (fun both => ne_dir c is both.1.symm),if_pos rfl]
      rintro ⟨-,-,t,-,alive,page⟩
      exact ne_dir _ (active t alive) page
  · rw [store_other _ (ne_dir c' (pushed_live is active target)),pushed]
    rcases target with rfl | ⟨pushes,t,slot,alive,rfl⟩
    · rw [if_pos (show pagedir m c' = pagedir m c' ∧ i = i from ⟨rfl,rfl⟩),ite_self]
    · exact if_pos ⟨rfl,pushes,t,List.mem_range.mpr slot,alive,rfl⟩
  · rw [store_other _ other,pushed,if_neg,if_neg,if_neg other]
    · rintro ⟨page,word⟩
      exact none word c (.inl rfl) page.symm
    · rintro ⟨word,pushes,t,member,alive,page⟩
      exact none word _ (.inr ⟨pushes,t,List.mem_range.mp member,alive,rfl⟩) page

section
variable {tasks : Nat → Task} {c virt phys : Nat} {flags : Flags} {kernel : Bool} {m' : Memory}
  (labels : Labels live m label) (is : live c) (active : ∀ t, (tasks t).active = true → live (tasks t).context)
  (which : kernel = true ↔ c = m.kernel_context)
include labels is active which

/-- A page of the pool becomes the table. -/
theorem unsafe_grow (absent : (pde m c (virt / 0x1000 / 1024)).flags.present = false)
    (mapped : vmm_map_page_unsafe tasks m (pagedir m c) kernel virt phys flags = some m') :
    (∃ label', Labels live m' label') ∧ Kept live m m' ∧
      Maps live (Pushed tasks kernel c) m c (virt / 0x1000 / 1024) (virt / 0x1000 % 1024) ⟨phys / 0x1000,flags⟩ m' := by
  unfold vmm_map_page_unsafe at mapped
  dsimp only at mapped
  rw [show m.word (pagedir m c) (virt / 0x1000 / 1024) = pde m c (virt / 0x1000 / 1024) from rfl,
    if_neg (by rw [absent]; decide)] at mapped
  cases allocated : alloc_pagetable m with
  | none =>
    rw [allocated] at mapped
    cases mapped
  | some r =>
    obtain ⟨m₁,f⟩ := r
    obtain ⟨word,same_kernel,free,pool,mask,used⟩ := alloc_pagetable_spec allocated
    rw [allocated] at mapped
    have after := Option.some.inj mapped
    generalize (⟨phys / 0x1000,flags⟩ : Entry) = e at after ⊢
    generalize virt / 0x1000 / 1024 = i at absent after ⊢
    generalize virt / 0x1000 % 1024 = j at after ⊢
    have fresh := fresh_unlabelled labels free
    let entry : Entry := ⟨f,{ flags with present := true }⟩
    obtain ⟨new,pushed,old⟩ := @grow_word live m label tasks c i j f e entry kernel m₁ labels is active fresh word
    rw [show store _ f j e = m' from after] at new pushed old
    have to_live {c' : Nat} : Pushed tasks kernel c c' → live c' := pushed_live is active
    have pushed_pmm (m₂ : Memory) (dir : Nat) : (if kernel then push tasks m₂ dir i else m₂).pmm = m₂.pmm ∧
        (if kernel then push tasks m₂ dir i else m₂).kernel_context = m₂.kernel_context := by
      split
      · exact push_kept ..
      · exact ⟨rfl,rfl⟩
    have pmm : m'.pmm = m₁.pmm := by
      rw [← after]
      exact (pushed_pmm _ _).1
    have kernel_context : m'.kernel_context = m.kernel_context := by
      rw [← after,← same_kernel]
      exact (pushed_pmm _ _).2
    have ne_fresh {x : Nat} {l : Label} (labelled : label x = some l) : x ≠ f := fresh_ne fresh labelled
    have of_kernel (target : Pushed tasks kernel c m.kernel_context) : kernel = true := by
      rcases target with here | ⟨pushes,-⟩
      · exact which.mpr here.symm
      · exact pushes
    have dirs (c' : Nat) (is' : live c') : pagedir m' c' = pagedir m c' := by
      unfold pagedir
      rw [old _ _ (ne_fresh (labels.context c' is'))]
      exact fun _ _ target => (context_ne_dir labels is' (to_live target)).symm
    have pde_target (c' : Nat) (is' : live c') (target : Pushed tasks kernel c c') : pde m' c' i = entry := by
      unfold pde
      rw [dirs c' is',pushed c' target]
    have pde_other (c' i' : Nat) (is' : live c') (other : Pushed tasks kernel c c' → i' ≠ i) : pde m' c' i' = pde m c' i' := by
      unfold pde
      rw [dirs c' is',old _ _ (ne_fresh (labels.dir c' is'))]
      intro same c'' target page
      rw [dir_inj labels (to_live target) is' page] at target
      exact other target same
    have table_fresh (c' i' : Nat) (is' : live c') (there : (pde m c' i').flags.present = true) : (pde m c' i').frame ≠ f := by
      cases table_label labels is' there with
      | inl shared => exact ne_fresh shared
      | inr own => exact ne_fresh own
    refine ⟨⟨update label f (some (if kernel then .kernel i else .table c i)),?_⟩,⟨kernel_context,dirs⟩,
      .grow f { flags with present := true } rfl absent free pool ?_ ?_ (.inl rfl) pde_target pde_other ?_ ?_⟩
    · have old {x : Nat} {l : Label} (labelled : label x = some l) :
          update label f (some (if kernel then Label.kernel i else .table c i)) x = some l := by
        rw [update_of_ne (ne_fresh labelled)]
        exact labelled
      refine ⟨?_,?_,?_,?_,?_,?_⟩
      · rw [kernel_context]
        exact labels.kernel_live
      · exact fun c' is' => old (labels.context c' is')
      · intro c' is'
        rw [dirs c' is']
        exact old (labels.dir c' is')
      · intro i' there
        rw [kernel_context] at there ⊢
        by_cases target : Pushed tasks kernel c m.kernel_context ∧ i' = i
        · rw [target.2,pde_target _ labels.kernel_live target.1]
          show update label f _ f = _
          rw [update_self,if_pos (of_kernel target.1)]
        · rw [pde_other _ _ labels.kernel_live (fun t same => target ⟨t,same⟩)] at there ⊢
          exact old (labels.kernel i' there)
      · intro c' i' is' there
        rw [kernel_context]
        by_cases target : Pushed tasks kernel c c' ∧ i' = i
        · rw [target.2,pde_target c' is' target.1]
          cases kernel_is : kernel with
          | true =>
            refine .inl ?_
            exact (pde_target _ labels.kernel_live (.inl (which.mp kernel_is).symm)).symm
          | false =>
            refine .inr ?_
            have here : c' = c := by
              rcases target.1 with here | ⟨pushes,-⟩
              · exact here
              · rw [kernel_is] at pushes
                cases pushes
            show update label f _ f = _
            rw [update_self,if_neg (by decide),here]
        · rw [pde_other c' i' is' (fun t same => target ⟨t,same⟩)] at there ⊢
          cases labels.table c' i' is' there with
          | inl shared =>
            by_cases moved : Pushed tasks kernel c m.kernel_context ∧ i' = i
            · rw [shared,moved.2,← which.mp (of_kernel moved.1),absent] at there
              cases there
            · rw [pde_other _ i' labels.kernel_live (fun t same => moved ⟨t,same⟩)]
              exact .inl shared
          | inr own => exact .inr (old own)
      · intro x l labelled
        rw [pmm,used,pool_mask mask]
        by_cases here : x = f
        · rw [here]
          exact ⟨by simp,pool⟩
        · rw [update_of_ne here] at labelled
          obtain ⟨is_used,is_pool⟩ := labels.stored x l labelled
          exact ⟨by rw [is_used]; rfl,is_pool⟩
    · rw [pmm]
      exact mask
    · intro k
      rw [pmm]
      exact used k
    · intro c' j' is' target
      unfold pte
      rw [pde_target c' is' target]
      exact new j'
    · intro c' i' j' is' other there
      unfold pte
      rw [pde_other c' i' is' other,old _ _ (table_fresh c' i' is' there)]
      exact fun _ _ target => (table_ne_dir labels is' (to_live target) there).symm

theorem unsafe_spec (mapped : vmm_map_page_unsafe tasks m (pagedir m c) kernel virt phys flags = some m') :
    (∃ label', Labels live m' label') ∧ Kept live m m' ∧
      Maps live (Pushed tasks kernel c) m c (virt / 0x1000 / 1024) (virt / 0x1000 % 1024) ⟨phys / 0x1000,flags⟩ m' := by
  cases present : (pde m c (virt / 0x1000 / 1024)).flags.present with
  | true =>
    obtain ⟨labels',kept,maps⟩ := unsafe_write labels is present mapped
    exact ⟨⟨label,labels'⟩,kept,maps⟩
  | false => exact unsafe_grow labels is active which present mapped

end

end
end MicroOS.Paging

import MicroOS.PagingLabels

/-!
What a call of `vmm_map_page` keeps. Tables that a context has for itself map pages
outside of the pool, or what the kernel maps at the same place.
-/
namespace MicroOS.Paging
open Tasks

/-- A table that is not the kernel's. -/
def Private (m : Memory) (c i : Nat) : Prop :=
  (pde m c i).flags.present = true ∧ pde m c i ≠ pde m m.kernel_context i

def KernelPage (m : Memory) (i j : Nat) : Prop :=
  (pde m m.kernel_context i).flags.present = true ∧ (pte m m.kernel_context i j).flags.present = true

structure Tables (live : Nat → Prop) (m : Memory) : Prop where
  labels : ∃ label, Labels live m label
  outside : ∀ c i j, live c → Private m c i → (pte m c i j).flags.present = true →
    Pmm.in_pool m.pmm (pte m c i j).frame = false ∨ KernelPage m i j

section
variable {live targets : Nat → Prop} {m m' : Memory} {c i j : Nat} {e : Entry}

theorem maps_mask (maps : Maps live targets m c i j e m') :
    m'.pmm.bitmap_pagetable_mask = m.pmm.bitmap_pagetable_mask := by
  cases maps with
  | write _ pmm _ _ => rw [pmm]
  | grow f flags _ _ _ _ mask => exact mask

theorem maps_at (maps : Maps live targets m c i j e m') (is : live c) :
    (pde m' c i).flags.present = true ∧ pte m' c i j = e := by
  cases maps with
  | write present _ pdes ptes =>
    rw [pdes c i is,ptes c i j is present,if_pos ⟨rfl,rfl⟩]
    exact ⟨present,rfl⟩
  | grow f flags present _ _ _ _ _ target pde_target _ pte_target _ =>
    rw [pde_target c is target,pte_target c j is target,if_pos rfl]
    exact ⟨present,rfl⟩

/-- Entries of a directory change at the index only, where there was no table, for the targets. -/
theorem maps_pde (maps : Maps live targets m c i j e m') {c' i' : Nat} (is : live c')
    (other : targets c' → i' = i → (pde m c i).flags.present = true) : pde m' c' i' = pde m c' i' := by
  cases maps with
  | write _ _ pdes _ => exact pdes c' i' is
  | grow f flags _ absent _ _ _ _ _ _ pde_other _ _ =>
    refine pde_other c' i' is ?_
    intro target same
    rw [absent] at other
    cases other target same

section
variable {label : Nat → Option Label} (labels : Labels live m label) (maps : Maps live targets m c i j e m')
  (is : live c)
include labels maps is

/-- What is mapped afterwards is the new entry or was mapped before. -/
theorem maps_pte {c' i' j' : Nat} (is' : live c') (there : (pde m' c' i').flags.present = true)
    (mapped : (pte m' c' i' j').flags.present = true) :
    (i' = i ∧ j' = j ∧ pte m' c' i' j' = e) ∨ (pde m' c' i' = pde m c' i' ∧ pte m' c' i' j' = pte m c' i' j') := by
  cases maps with
  | write present _ pdes ptes =>
    rw [pdes c' i' is'] at there ⊢
    rw [ptes c' i' j' is' there]
    by_cases here : (pde m c' i').frame = (pde m c i).frame ∧ j' = j
    · rw [if_pos here]
      exact .inl ⟨table_index labels is' is there present here.1,here.2,rfl⟩
    · rw [if_neg here]
      exact .inr ⟨rfl,rfl⟩
  | grow f flags _ _ _ _ _ _ _ pde_target pde_other pte_target pte_other =>
    by_cases target : targets c' ∧ i' = i
    · rw [target.2,pte_target c' j' is' target.1] at mapped
      rw [target.2,pte_target c' j' is' target.1]
      by_cases here : j' = j
      · rw [if_pos here]
        exact .inl ⟨rfl,here,rfl⟩
      · rw [if_neg here] at mapped
        cases mapped
    · have same := pde_other c' i' is' (fun t here => target ⟨t,here⟩)
      rw [same] at there
      exact .inr ⟨same,pte_other c' i' j' is' (fun t here => target ⟨t,here⟩) there⟩

/-- Where a table stays, only the one word of it may change. -/
theorem maps_other {c' i' j' : Nat} (is' : live c') (there : (pde m c' i').flags.present = true)
    (same : pde m' c' i' = pde m c' i') (other : ¬ (i' = i ∧ j' = j)) : pte m' c' i' j' = pte m c' i' j' := by
  cases maps with
  | write present _ pdes ptes =>
    rw [ptes c' i' j' is' there,if_neg]
    rintro ⟨frame,word⟩
    exact other ⟨table_index labels is' is there present frame,word⟩
  | grow f flags _ _ free _ _ _ _ pde_target _ _ pte_other =>
    refine pte_other c' i' j' is' ?_ there
    intro target here
    rw [here] at same there
    rw [pde_target c' is' target] at same
    rw [← same] at there
    have labelled := table_label labels is' (by rw [← same]; exact there)
    rw [← same] at labelled
    have fresh := fresh_unlabelled labels free
    rcases labelled with shared | own
    · rw [show label f = _ from shared] at fresh
      cases fresh
    · rw [show label f = _ from own] at fresh
      cases fresh

/-- What a private table maps afterwards is the new entry or was mapped before, and what the kernel maps elsewhere stays. -/
theorem outside_maps (kernel : m'.kernel_context = m.kernel_context)
    (stays : ∀ i', (pde m m.kernel_context i').flags.present = true → pde m' m.kernel_context i' = pde m m.kernel_context i')
    {c' i' j' : Nat} (is' : live c') (private_ : Private m' c' i') (mapped : (pte m' c' i' j').flags.present = true) :
    i' = i ∧ j' = j ∧ pte m' c' i' j' = e ∨ pte m' c' i' j' = pte m c' i' j' ∧ Private m c' i' ∧
      (¬ (i' = i ∧ j' = j) → KernelPage m i' j' → KernelPage m' i' j') := by
  obtain ⟨there,apart⟩ := private_
  refine (maps_pte labels maps is is' there mapped).imp id ?_
  rintro ⟨same,old⟩
  rw [same] at there apart
  refine ⟨old,⟨there,fun shared => ?_⟩,?_⟩
  · rw [shared] at there apart
    rw [kernel,stays i' there] at apart
    exact apart rfl
  · rintro other ⟨table,page⟩
    rw [KernelPage,kernel,stays i' table,maps_other labels maps is labels.kernel_live table (stays i' table) other]
    exact ⟨table,page⟩

end

/-- A user's mapping: the kernel has no table there, and the page is outside of the pool. -/
theorem tables_user (tables : Tables live m) (is : live c) (other : c ≠ m.kernel_context)
    (absent : (pde m m.kernel_context i).flags.present = false) (outside : Pmm.in_pool m.pmm e.frame = false)
    (kept : Kept live m m') (labels' : ∃ label, Labels live m' label)
    (maps : Maps live (· = c) m c i j e m') : Tables live m' := by
  obtain ⟨label,labels⟩ := tables.labels
  refine ⟨labels',?_⟩
  intro c' i' j' is' private_ mapped
  rw [pool_mask (maps_mask maps)]
  have stays (i' : Nat) := @maps_pde _ _ _ _ _ _ _ _ maps _ i' labels.kernel_live (fun target => absurd target other.symm)
  rcases outside_maps labels maps is kept.kernel_context (fun i' _ => stays i') is' private_ mapped with
    ⟨-,-,new⟩ | ⟨old,before,kernel⟩
  · rw [new]
    exact .inl outside
  · rw [old] at mapped ⊢
    refine (tables.outside c' i' j' is' before mapped).imp id ?_
    intro page
    refine kernel ?_ page
    rintro ⟨rfl,-⟩
    rw [KernelPage,absent] at page
    cases page.1

/-- The kernel's own mapping, after the one into the context in use. -/
theorem tables_kernel {m₁ m₂ : Memory} {targets' : Nat → Prop} (tables : Tables live m) (is : live c) (ok : e.flags.present = true)
    (labels₁ : ∃ label, Labels live m₁ label) (first : m₁ = m ∨ c ≠ m.kernel_context ∧ Kept live m m₁ ∧ Maps live (· = c) m c i j e m₁)
    (kept : Kept live m₁ m₂) (labels₂ : ∃ label, Labels live m₂ label)
    (second : Maps live targets' m₁ m₁.kernel_context i j e m₂) : Tables live m₂ := by
  obtain ⟨label,labels⟩ := tables.labels
  obtain ⟨label₁,labels₁⟩ := labels₁
  have kernel_live := labels₁.kernel_live
  have new : KernelPage m₂ i j := by
    obtain ⟨table,entry⟩ := maps_at second kernel_live
    rw [KernelPage,kept.kernel_context,entry]
    exact ⟨table,ok⟩
  have stays (i' : Nat) (table : (pde m₁ m₁.kernel_context i').flags.present = true) :
      pde m₂ m₁.kernel_context i' = pde m₁ m₁.kernel_context i' :=
    maps_pde second kernel_live fun _ here => by rw [← here]; exact table
  refine ⟨labels₂,?_⟩
  intro c' i' j' is' private_ mapped
  rw [pool_mask (maps_mask second)]
  rcases outside_maps labels₁ second kernel_live kept.kernel_context stays is' private_ mapped with
    ⟨rfl,rfl,-⟩ | ⟨old,before,kernel⟩
  · exact .inr new
  · rw [old] at mapped ⊢
    by_cases here : i' = i ∧ j' = j
    · rw [here.1,here.2]
      exact .inr new
    rcases first with rfl | ⟨other,kept₁,maps⟩
    · exact (tables.outside c' i' j' is' before mapped).imp id (kernel here)
    · have stays₁ (i' : Nat) := @maps_pde _ _ _ _ _ _ _ _ maps _ i' labels.kernel_live (fun target => absurd target other.symm)
      rw [pool_mask (maps_mask maps)]
      rcases outside_maps labels maps is kept₁.kernel_context (fun i' _ => stays₁ i') is' before mapped with
        ⟨same,word,-⟩ | ⟨old₁,before₁,kernel₁⟩
      · exact absurd ⟨same,word⟩ here
      · rw [old₁] at mapped ⊢
        exact (tables.outside c' i' j' is' before₁ mapped).imp id fun page => kernel here (kernel₁ here page)

theorem pushed_false (tasks : Nat → Task) (c : Nat) : Pushed tasks false c = (· = c) := by
  funext c'
  rw [eq_iff_iff]
  constructor
  · rintro (here | ⟨off,-⟩)
    · exact here
    · cases off
  · exact fun here => .inl here

theorem kept_refl (live : Nat → Prop) (m : Memory) : Kept live m m := ⟨rfl,fun _ _ => rfl⟩

/-- A kernel mapping goes into the context in use first, then into the kernel's. -/
def KernelMaps (live : Nat → Prop) (tasks : Nat → Task) (c : Nat) (m : Memory) (i j : Nat) (e : Entry) (m₂ : Memory) : Prop :=
  ∃ m₁, (∃ label, Labels live m₁ label) ∧ Kept live m m₁ ∧
    (m₁ = m ∧ c = m.kernel_context ∨ c ≠ m.kernel_context ∧ Maps live (· = c) m c i j e m₁) ∧
    Maps live (Pushed tasks true m.kernel_context) m₁ m.kernel_context i j e m₂

section
variable {tasks : Nat → Task} {cr3 virt phys : Nat} {flags : Flags} {r : Memory × Int} (tables : Tables live m)
  (is : live c)
include tables is

theorem user_maps (other : c ≠ m.kernel_context) (active : ∀ t, (tasks t).active = true → live (tasks t).context)
    (outside : Pmm.in_pool m.pmm (phys / 0x1000) = false)
    (mapped : vmm_map_page tasks cr3 m c virt phys flags = some r) : Tables live r.1 ∧
      ((virt % 0x1000 ≠ 0 ∨ phys % 0x1000 ≠ 0) ∧ r.1 = m ∨
        virt % 0x1000 = 0 ∧ phys % 0x1000 = 0 ∧ (pde m m.kernel_context (virt / 0x1000 / 1024)).flags.present = false ∧
        Maps live (· = c) m c (virt / 0x1000 / 1024) (virt / 0x1000 % 1024) ⟨phys / 0x1000,flags⟩ r.1) := by
  unfold vmm_map_page at mapped
  by_cases aligned : virt % 0x1000 ≠ 0 ∨ phys % 0x1000 ≠ 0
  · rw [if_pos aligned] at mapped
    cases mapped
    exact ⟨tables,.inl ⟨aligned,rfl⟩⟩
  · rw [if_neg aligned,if_pos other] at mapped
    have zeros : virt % 0x1000 = 0 ∧ phys % 0x1000 = 0 := by omega
    cases absent : (pde m m.kernel_context (virt / 0x1000 / 1024)).flags.present with
    | true =>
      rw [if_pos absent] at mapped
      cases mapped
    | false =>
      rw [if_neg (by rw [absent]; decide)] at mapped
      obtain ⟨m₁,made,same⟩ := Option.map_eq_some_iff.mp mapped
      obtain ⟨label,labels⟩ := tables.labels
      obtain ⟨labels',kept,maps⟩ := unsafe_spec labels is active
        ⟨fun off => absurd off (by decide),fun here => absurd here other⟩ made
      rw [pushed_false] at maps
      rw [← same]
      exact ⟨tables_user tables is other absent outside kept labels' maps,.inr ⟨zeros.1,zeros.2,rfl,maps⟩⟩

theorem kernel_maps (current : cr3 = pagedir m c) (active : ∀ t, (tasks t).active = true → live (tasks t).context)
    (ok : flags.present = true) (mapped : vmm_map_page tasks cr3 m m.kernel_context virt phys flags = some r) : Tables live r.1 ∧
      ((virt % 0x1000 ≠ 0 ∨ phys % 0x1000 ≠ 0) ∧ r.1 = m ∨
        virt % 0x1000 = 0 ∧ phys % 0x1000 = 0 ∧
        KernelMaps live tasks c m (virt / 0x1000 / 1024) (virt / 0x1000 % 1024) ⟨phys / 0x1000,flags⟩ r.1) := by
  unfold vmm_map_page at mapped
  by_cases aligned : virt % 0x1000 ≠ 0 ∨ phys % 0x1000 ≠ 0
  · rw [if_pos aligned] at mapped
    cases mapped
    exact ⟨tables,.inl ⟨aligned,rfl⟩⟩
  · rw [if_neg aligned,if_neg (by simp)] at mapped
    have zeros : virt % 0x1000 = 0 ∧ phys % 0x1000 = 0 := by omega
    obtain ⟨label,labels⟩ := tables.labels
    have kernel_live := labels.kernel_live
    have first : ∃ m₁, (∃ label, Labels live m₁ label) ∧ Kept live m m₁ ∧
        (m₁ = m ∧ c = m.kernel_context ∨ c ≠ m.kernel_context ∧
          Maps live (· = c) m c (virt / 0x1000 / 1024) (virt / 0x1000 % 1024) ⟨phys / 0x1000,flags⟩ m₁) ∧
        ( vmm_map_page_unsafe tasks m₁ (pagedir m m.kernel_context) true virt phys flags).map (fun m => (m,0)) = some r := by
      by_cases other : c = m.kernel_context
      · rw [current,other,if_neg (by simp)] at mapped
        exact ⟨m,tables.labels,kept_refl live m,.inl ⟨rfl,other⟩,mapped⟩
      · rw [current,if_pos (fun same => other (dir_inj labels is kernel_live same))] at mapped
        cases made : vmm_map_page_unsafe tasks m (pagedir m c) false virt phys flags with
        | none =>
          rw [made] at mapped
          cases mapped
        | some m₁ =>
          obtain ⟨labels₁,kept₁,maps₁⟩ := unsafe_spec labels is active
            ⟨fun off => absurd off (by decide),fun here => absurd here other⟩ made
          rw [pushed_false] at maps₁
          rw [made] at mapped
          dsimp only at mapped
          rw [kept₁.pagedir _ kernel_live] at mapped
          exact ⟨m₁,labels₁,kept₁,.inr ⟨other,maps₁⟩,mapped⟩
    obtain ⟨m₁,⟨label₁,labels₁⟩,kept₁,how,mapped⟩ := first
    obtain ⟨m₂,made,same⟩ := Option.map_eq_some_iff.mp mapped
    rw [← kept₁.pagedir _ kernel_live,← kept₁.kernel_context] at made
    have kernel_live₁ := labels₁.kernel_live
    obtain ⟨labels₂,kept₂,maps₂⟩ := unsafe_spec labels₁ kernel_live₁ active ⟨fun _ => rfl,fun _ => rfl⟩ made
    have after : Tables live m₂ := by
      refine tables_kernel tables is ok ⟨label₁,labels₁⟩ ?_ kept₂ labels₂ maps₂
      exact how.imp And.left fun maps₁ => ⟨maps₁.1,kept₁,maps₁.2⟩
    rw [← same]
    refine ⟨after,.inr ⟨zeros.1,zeros.2,?_⟩⟩
    rw [kept₁.kernel_context] at maps₂
    exact ⟨m₁,⟨label₁,labels₁⟩,kept₁,how,maps₂⟩

end

end
end MicroOS.Paging

import MicroOS.PagingContexts
import MicroOS.Runs

/-!
Runs of the memory manager: contexts are created and destroyed and pages are mapped, in any order. The pages of contexts,
directories and tables stay with the context that they are of, and only the translations that are asked for change.
-/
namespace MicroOS.Paging
open Tasks Runs

structure Manager where
  memory : Memory
  contexts : List Nat

inductive Call
  | create
  | destroy (context : Nat)
  | map (tasks : Nat → Task) (cr3 context virt phys : Nat) (flags : Flags)

/-- A new context has the kernel's entries, as `init_task` makes it. -/
def perform (s : Manager) : Call → Option Manager
  | .create => (vmm_create_context s.memory).map fun r => ⟨vmm_clone_kernel_context r.1 r.2,r.2 :: s.contexts⟩
  | .destroy c => some ⟨vmm_destroy_context s.memory c,s.contexts.filter (· ≠ c)⟩
  | .map tasks cr3 c virt phys flags => (vmm_map_page tasks cr3 s.memory c virt phys flags).map fun r => ⟨r.1,s.contexts⟩

def manager : System Manager Call where
  start s := s.contexts = [s.memory.kernel_context] ∧ Tables (· ∈ s.contexts) s.memory
  step s call s' := perform s call = some s'

/-- The contexts in use are live, the kernel's is not destroyed, and a page for a user is not one of the pool. -/
def Proper (s : Manager) : Call → Prop
  | .create => True
  | .destroy c => c ∈ s.contexts ∧ c ≠ s.memory.kernel_context
  | .map tasks cr3 c _ phys flags => (∃ current ∈ s.contexts, cr3 = pagedir s.memory current) ∧
      (∀ t, (tasks t).active = true → (tasks t).context ∈ s.contexts) ∧ c ∈ s.contexts ∧ flags.present = true ∧
      (c ≠ s.memory.kernel_context → Pmm.in_pool s.memory.pmm (phys / 0x1000) = false)

theorem tables_congr {live live' : Nat → Prop} {m : Memory} (tables : Tables live m) (same : ∀ c, live' c ↔ live c) : Tables live' m := by
  rwa [show live' = live from funext fun c => propext (same c)]

/-- What a mapping does, to a user's table or to the kernel's. -/
theorem map_cases {s : Manager} {tasks : Nat → Task} {cr3 c virt phys : Nat} {flags : Flags} {r : Memory × Int}
    (tables : Tables (· ∈ s.contexts) s.memory) (proper : Proper s (.map tasks cr3 c virt phys flags))
    (mapped : vmm_map_page tasks cr3 s.memory c virt phys flags = some r) :
    Tables (· ∈ s.contexts) r.1 ∧ ((virt % 0x1000 ≠ 0 ∨ phys % 0x1000 ≠ 0) ∧ r.1 = s.memory ∨
      virt % 0x1000 = 0 ∧ phys % 0x1000 = 0 ∧
        (c ≠ s.memory.kernel_context ∧ (pde s.memory s.memory.kernel_context (virt / 0x1000 / 1024)).flags.present = false ∧
            Maps (· ∈ s.contexts) (· = c) s.memory c (virt / 0x1000 / 1024) (virt / 0x1000 % 1024) ⟨phys / 0x1000,flags⟩ r.1 ∨
          c = s.memory.kernel_context ∧ ∃ current ∈ s.contexts, KernelMaps (· ∈ s.contexts) tasks current s.memory
            (virt / 0x1000 / 1024) (virt / 0x1000 % 1024) ⟨phys / 0x1000,flags⟩ r.1)) := by
  obtain ⟨⟨current,is_current,in_use⟩,active,is,present,outside⟩ := proper
  by_cases kernel : c = s.memory.kernel_context
  · rw [kernel] at mapped
    obtain ⟨after,same | ⟨v,p,maps⟩⟩ := kernel_maps tables is_current in_use active present mapped
    · exact ⟨after,.inl same⟩
    · exact ⟨after,.inr ⟨v,p,.inr ⟨kernel,current,is_current,maps⟩⟩⟩
  · obtain ⟨after,same | ⟨v,p,absent,maps⟩⟩ := user_maps tables is kernel active (outside kernel) mapped
    · exact ⟨after,.inl same⟩
    · exact ⟨after,.inr ⟨v,p,.inl ⟨kernel,absent,maps⟩⟩⟩

theorem tables_perform {s s' : Manager} {call : Call} (tables : Tables (· ∈ s.contexts) s.memory) (done : perform s call = some s')
    (proper : Proper s call) : Tables (· ∈ s'.contexts) s'.memory := by
  cases call with
  | create =>
    obtain ⟨⟨m,c⟩,created,same⟩ := Option.map_eq_some_iff.mp done
    have made := new_context_spec tables created
    rw [← same]
    dsimp only
    refine tables_congr made.tables fun c' => ?_
    rw [List.mem_cons,With,or_comm]
  | destroy c =>
    rw [perform,Option.some.injEq] at done
    rw [← done]
    have dies : ¬ c ∈ s.contexts.filter (· ≠ c) := by simp
    refine tables_frees tables (frees_destroy s.memory c) (fun _ member => List.mem_of_mem_filter member) ?_ ?_
    · exact List.mem_filter.mpr ⟨tables.labels.choose_spec.kernel_live,by simpa using proper.2.symm⟩
    · exact fun label labels k gone => gone_safe tables labels proper.1 dies gone
  | map tasks cr3 c virt phys flags =>
    obtain ⟨r,mapped,rfl⟩ := Option.map_eq_some_iff.mp done
    exact (map_cases tables proper mapped).1

theorem tables_reached {s : Manager} (reached : Reached (guarded manager Proper) s) : Tables (· ∈ s.contexts) s.memory :=
  guarded_invariant (fun s (begins : manager.start s) => begins.2) (fun _ _ _ tables done proper => tables_perform tables done proper) reached

/-- The pages of a context: its own, its directory and the tables that it does not share with the kernel. -/
def Owns (m : Memory) (c page : Nat) : Prop :=
  page = c ∨ page = pagedir m c ∨
    ∃ i, (pde m c i).flags.present = true ∧ (pde m c i = pde m m.kernel_context i → c = m.kernel_context) ∧ page = (pde m c i).frame

def owner (kernel : Nat) : Label → Nat
  | .context c => c
  | .dir c => c
  | .kernel _ => kernel
  | .table c _ => c

theorem owns_label {live : Nat → Prop} {m : Memory} {label : Nat → Option Label} (labels : Labels live m label) {c page : Nat}
    (is : live c) (owns : Owns m c page) : ∃ l, label page = some l ∧ owner m.kernel_context l = c := by
  rcases owns with rfl | rfl | ⟨i,present,own,rfl⟩
  · exact ⟨_,labels.context page is,rfl⟩
  · exact ⟨_,labels.dir c is,rfl⟩
  · by_cases shared : pde m c i = pde m m.kernel_context i
    · have kernel := own shared
      rw [kernel] at present ⊢
      exact ⟨_,labels.kernel i present,rfl⟩
    · exact ⟨_,(labels.table c i is present).resolve_left shared,rfl⟩

/-- A page of a live context is used and of the pool, no other context has it, and none gives it back when it is destroyed. -/
theorem pages_owned {s : Manager} (reached : Reached (guarded manager Proper) s) {c page : Nat} (is : c ∈ s.contexts)
    (owns : Owns s.memory c page) : Pmm.is_used s.memory.pmm page = true ∧ Pmm.in_pool s.memory.pmm page = true ∧
      ∀ other ∈ s.contexts, other ≠ c → ¬ Owns s.memory other page ∧ ¬ Gone s.memory other page := by
  have tables := tables_reached reached
  obtain ⟨label,labels⟩ := tables.labels
  obtain ⟨l,labelled,mine⟩ := owns_label labels is owns
  obtain ⟨used,pool⟩ := labels.stored page l labelled
  refine ⟨used,pool,fun other there different => ⟨fun owns' => ?_,fun gone => ?_⟩⟩
  · obtain ⟨l',labelled',theirs⟩ := owns_label labels there owns'
    rw [labelled] at labelled'
    cases labelled'
    exact different (theirs.symm.trans mine)
  · rcases @gone_safe _ (· ≠ other) _ _ _ _ tables labels there (fun not => not rfl) gone with outside | ⟨d,l',dead,labelled',about⟩
    · rw [pool] at outside
      cases outside
    · rw [labelled] at labelled'
      cases labelled'
      refine different (Eq.trans ?_ mine)
      rw [← not_not.mp dead]
      cases l with
      | kernel i => cases about
      | context d' | dir d' | table d' i => exact about.symm

/-- The kernel's context and directory are the pages 1 and 2 of a pool of 32 pages. -/
def boot : Manager where
  memory := ⟨⟨fun i => if i = 0 then 0x1FFFFFFF else BitVec.allOnes 32,fun i => if i = 0 then 0 else BitVec.allOnes 32,0,0⟩,
    fun page _ => if page = 1 then ⟨2,zero.flags⟩ else zero,1⟩
  contexts := [1]

theorem boot_starts : manager.start boot := by
  refine ⟨rfl,⟨fun f => if f = 1 then some (.context 1) else if f = 2 then some (.dir 1) else none,?_,?_,?_,?_,?_,?_⟩,?_⟩
  · exact List.mem_singleton_self 1
  · rintro c is
    rw [List.mem_singleton.mp is]
    rfl
  · rintro c is
    rw [List.mem_singleton.mp is]
    rfl
  · rintro i ⟨⟩
  · rintro c i is there
    rw [List.mem_singleton.mp is] at there
    cases there
  · intro f l labelled
    split_ifs at labelled with first second
    · rw [first]
      decide
    · rw [second]
      decide
  · rintro c i j is ⟨there,-⟩
    rw [List.mem_singleton.mp is] at there
    cases there

theorem pages_owned_new : ∃ s c, Reached (guarded manager Proper) s ∧ s.contexts = [c,1] ∧ Pmm.is_used s.memory.pmm c = true ∧
    ¬ Gone s.memory 1 c := by
  have found : (vmm_create_context boot.memory).map Prod.snd = some 3 := by decide +kernel
  obtain ⟨r,made,three⟩ := Option.map_eq_some_iff.mp found
  have done : perform boot .create = some ⟨vmm_clone_kernel_context r.1 r.2,r.2 :: boot.contexts⟩ := by
    rw [perform,made,Option.map_some]
  have reached : Reached (guarded manager Proper) ⟨vmm_clone_kernel_context r.1 r.2,r.2 :: boot.contexts⟩ :=
    ⟨boot,[.create],boot_starts,.step ⟨done,trivial⟩ (.done _)⟩
  obtain ⟨used,-,others⟩ := @pages_owned _ reached r.2 r.2 List.mem_cons_self (.inl rfl)
  exact ⟨_,r.2,reached,rfl,used,(others 1 (List.mem_cons_of_mem _ List.mem_cons_self) (by rw [three]; decide)).2⟩

def page_at (m : Memory) (c i j : Nat) : Option Nat :=
  if (pde m c i).flags.present ∧ (pte m c i j).flags.present then some (pte m c i j).frame else none

theorem lookup_page (m : Memory) (ptr c : Nat) : vmm_lookup m ptr c =
    (page_at m c (ptr / 0x1000 / 1024) (ptr / 0x1000 % 1024)).elim 0 fun frame => frame * 0x1000 + ptr % 0x1000 := by
  unfold vmm_lookup page_at
  dsimp only
  split_ifs <;> simp_all

section
variable {live targets : Nat → Prop} {m m' : Memory} {label : Nat → Option Label} {c i j c' i' j' : Nat} {e : Entry}

/-- Where the directory's entry stays, and the table's if there is one, the page does. -/
theorem page_at_congr (pdes : pde m' c i = pde m c i) (ptes : (pde m c i).flags.present = true → pte m' c i j = pte m c i j) :
    page_at m' c i j = page_at m c i j := by
  unfold page_at
  rw [pdes]
  by_cases present : (pde m c i).flags.present = true
  · rw [ptes present]
  · rw [if_neg (fun both => present both.1),if_neg (fun both => present both.1)]

/-- A mapping changes no other page, unless a new table comes in the place of one that has it. -/
theorem page_at_maps (labels : Labels live m label) (maps : Maps live targets m c i j e m') (is : live c) (is' : live c')
    (other : ¬ (i' = i ∧ j' = j)) (empty : targets c' → i' = i → (pde m c i).flags.present = false → page_at m c' i' j' = none) :
    page_at m' c' i' j' = page_at m c' i' j' := by
  cases maps with
  | write present pmm pdes ptes =>
    refine page_at_congr (pdes c' i' is') fun there => ?_
    rw [ptes c' i' j' is' there,if_neg]
    rintro ⟨frame,word⟩
    exact other ⟨table_index labels is' is there present frame,word⟩
  | grow f flags _ absent _ _ _ _ _ pde_target pde_other pte_target pte_other =>
    by_cases target : targets c' ∧ i' = i
    · rw [empty target.1 target.2 absent]
      unfold page_at
      rw [target.2,pte_target c' j' is' target.1,if_neg (fun word => other ⟨target.2,word⟩)]
      exact if_neg fun both => Bool.false_ne_true both.2
    · have away : targets c' → i' ≠ i := fun t here => target ⟨t,here⟩
      exact page_at_congr (pde_other c' i' is' away) (pte_other c' i' j' is' away)

/-- A user's mapping changes no page of another context. -/
theorem page_at_user (labels : Labels live m label) (maps : Maps live (· = c) m c i j e m') (is : live c) (is' : live c')
    (absent : (pde m m.kernel_context i).flags.present = false) (different : c' ≠ c) : page_at m' c' i' j' = page_at m c' i' j' := by
  by_cases other : i' = i ∧ j' = j
  · obtain ⟨rfl,rfl⟩ := other
    cases maps with
    | write present pmm pdes ptes =>
      have own {d : Nat} (is : live d) (there : (pde m d i').flags.present = true) : label (pde m d i').frame = some (.table d i') := by
        refine (labels.table d i' is there).resolve_left fun shared => ?_
        rw [shared,absent] at there
        cases there
      refine page_at_congr (pdes c' i' is') fun there => ?_
      rw [ptes c' i' j' is' there,if_neg]
      rintro ⟨frame,-⟩
      have labelled := own is' there
      rw [frame,own is present] at labelled
      cases labelled
      exact different rfl
    | grow f flags _ _ _ _ _ _ _ _ pde_other _ pte_other =>
      have away : c' = c → i' ≠ i' := fun same => absurd same different
      exact page_at_congr (pde_other c' i' is' away) (pte_other c' i' j' is' away)
  · exact page_at_maps labels maps is is' other fun same => absurd same different

/-- The kernel's mapping goes to the context in use first. -/
theorem page_at_kernel {tasks : Nat → Task} (labels : Labels live m label) (maps : KernelMaps live tasks c m i j e m') (is : live c)
    (is' : live c') (other : ¬ (i' = i ∧ j' = j))
    (shared : i' = i → (pde m m.kernel_context i).flags.present = false → ¬ Private m c' i) : page_at m' c' i' j' = page_at m c' i' j' := by
  obtain ⟨m₁,⟨label₁,labels₁⟩,kept,how,second⟩ := maps
  have kernel_live := labels.kernel_live
  have first : page_at m₁ c' i' j' = page_at m c' i' j' ∧ pde m₁ m.kernel_context i = pde m m.kernel_context i := by
    rcases how with ⟨rfl,-⟩ | ⟨away,maps⟩
    · exact ⟨rfl,rfl⟩
    · refine ⟨page_at_maps labels maps is is' other fun same here absent => ?_,maps_pde maps kernel_live fun same => absurd same.symm away⟩
      rw [here,same]
      exact if_neg fun both => by rw [absent] at both; cases both.1
  rw [← first.1]
  refine page_at_maps labels₁ second kernel_live is' other fun _ here absent => ?_
  rw [first.2] at absent
  rw [first.1]
  refine if_neg fun both => shared here absent ⟨here ▸ both.1,fun same => ?_⟩
  rw [here,same,absent] at both
  cases both.1

end

/-- The addresses whose translations a call may change: those of the page that is mapped, in its context or with the kernel's in
    all of them, and what a context has mapped in a table of its own where the kernel gets its first one. -/
def Touches (s : Manager) : Call → Nat → Nat → Prop
  | .map _ _ d virt _ _,c,ptr => (c = d ∨ d = s.memory.kernel_context) ∧ ptr / 0x1000 = virt / 0x1000 ∨
      d = s.memory.kernel_context ∧ ptr / 0x1000 / 1024 = virt / 0x1000 / 1024 ∧ Private s.memory c (virt / 0x1000 / 1024) ∧
        (pde s.memory d (virt / 0x1000 / 1024)).flags.present = false
  | _,_,_ => False

/-- Along every run a call changes no other translations, and a page that was mapped is translated. -/
theorem translations_kept {s s' : Manager} {call : Call} (reached : Reached (guarded manager Proper) s) (proper : Proper s call)
    (done : perform s call = some s') :
    (∀ c ∈ s.contexts, ∀ ptr, ¬ Touches s call c ptr → vmm_lookup s'.memory ptr c = vmm_lookup s.memory ptr c) ∧
      ∀ tasks cr3 d virt phys flags, call = .map tasks cr3 d virt phys flags → virt % 0x1000 = 0 → phys % 0x1000 = 0 →
        ∀ k < 0x1000, vmm_lookup s'.memory (virt + k) d = phys + k := by
  have tables := tables_reached reached
  obtain ⟨label,labels⟩ := tables.labels
  cases call with
  | create =>
    obtain ⟨⟨m,c'⟩,created,same⟩ := Option.map_eq_some_iff.mp done
    rw [← same]
    dsimp only
    have made := new_context_spec tables created
    refine ⟨fun c is ptr _ => ?_,nofun⟩
    rw [lookup_page,lookup_page,page_at_congr (made.pdes c _ is) (made.ptes c _ _ is)]
  | destroy d =>
    rw [perform,Option.some.injEq] at done
    rw [← done]
    have frees := frees_destroy s.memory d
    refine ⟨fun c _ ptr _ => ?_,nofun⟩
    rw [lookup_page,lookup_page,page_at_congr (pde_word frees.word c _) fun _ => pte_word frees.word c _ _]
  | map tasks cr3 d virt phys flags =>
    obtain ⟨r,mapped,rfl⟩ := Option.map_eq_some_iff.mp done
    have is_d := proper.2.2.1
    have present := proper.2.2.2.1
    obtain ⟨-,⟨unaligned,same⟩ | ⟨v,p,how⟩⟩ := map_cases tables proper mapped
    · refine ⟨fun c _ ptr _ => by rw [same],?_⟩
      rintro _ _ _ _ _ _ ⟨⟩ v p
      exact absurd unaligned (by omega)
    · constructor
      · intro c is ptr untouched
        have apart (here : c = d ∨ d = s.memory.kernel_context) :
            ¬ (ptr / 0x1000 / 1024 = virt / 0x1000 / 1024 ∧ ptr / 0x1000 % 1024 = virt / 0x1000 % 1024) :=
          fun same => untouched (.inl ⟨here,by omega⟩)
        suffices same : page_at r.1 c (ptr / 0x1000 / 1024) (ptr / 0x1000 % 1024) =
            page_at s.memory c (ptr / 0x1000 / 1024) (ptr / 0x1000 % 1024) by
          rw [lookup_page,lookup_page,same]
        rcases how with ⟨-,absent,maps⟩ | ⟨kernel,current,is_current,maps⟩
        · by_cases here : c = d
          · refine page_at_maps labels maps is_d is (apart (.inl here)) fun _ index empty => ?_
            rw [here,index]
            exact if_neg fun both => by rw [empty] at both; cases both.1
          · exact page_at_user labels maps is_d is absent here
        · refine page_at_kernel labels maps is_current is (apart (.inr kernel)) fun index absent private_ => ?_
          exact untouched (.inr ⟨kernel,index,private_,by rw [kernel]; exact absent⟩)
      · rintro _ _ _ _ _ _ ⟨⟩ - - k small
        have at_page : (pde r.1 d (virt / 0x1000 / 1024)).flags.present = true ∧
            pte r.1 d (virt / 0x1000 / 1024) (virt / 0x1000 % 1024) = ⟨phys / 0x1000,flags⟩ := by
          rcases how with ⟨-,-,maps⟩ | ⟨kernel,current,is_current,m₁,-,kept,-,maps⟩
          · exact maps_at maps is_d
          · rw [kernel]
            exact maps_at maps labels.kernel_live
        have page : (virt + k) / 0x1000 = virt / 0x1000 := by omega
        rw [lookup_page,page,page_at,at_page.2,if_pos ⟨at_page.1,present⟩]
        show phys / 0x1000 * 0x1000 + (virt + k) % 0x1000 = phys + k
        omega

def first_page : Call := .map (fun _ => ⟨false,false,0,0,0,0,[]⟩) 2 1 0x1000 0x5000 kernel_flags

theorem translations_kept_kernel : ∃ s, perform boot first_page = some s ∧ vmm_lookup s.memory 0x1234 1 = 0x5234 := by
  have proper : Proper boot first_page :=
    ⟨⟨1,List.mem_cons_self,rfl⟩,fun _ active => (Bool.false_ne_true active).elim,List.mem_cons_self,rfl,fun other => absurd rfl other⟩
  have maps : (perform boot first_page).isSome = true := by decide +kernel
  obtain ⟨s,done⟩ := Option.isSome_iff_exists.mp maps
  have translated := (translations_kept ⟨boot,[],boot_starts,.done _⟩ proper done).2 _ _ _ _ _ _ rfl (by decide) (by decide)
  exact ⟨s,done,translated 0x234 (by decide)⟩

end MicroOS.Paging

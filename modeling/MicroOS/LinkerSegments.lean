import MicroOS.LinkerLayout

/-!
Sections that are arranged in the address space, and what the linker derives from
them: the ranges of the two segments and the place of the first section in the file.
-/
namespace MicroOS.LinkerSegments
open Memory Alignment Linker LinkerLayout

structure Sane (s : Section) : Prop where
  group : s.out_group ≤ 3
  bss : s.type = SHT_NOBITS → s.out_group = 3 ∧ s.data = none
  exact : ∀ d, s.data = some d → d.length = s.size ∧ s.type ≠ SHT_NOBITS
  empty : s.data = none → s.type = SHT_NOBITS ∨ s.size = 0

theorem classify_section_le {name : List UInt8} {flags type group : Nat}
    (classified : classify_section name flags type = some group) : group ≤ 3 ∧ (type = SHT_NOBITS → group = 3) := by
  rw [classify_section] at classified
  split_ifs at classified with bits <;> simp only [Option.some.injEq] at classified <;> subst classified
  · exact ⟨le_rfl,fun _ => rfl⟩
  all_goals exact ⟨by decide,fun same => absurd same bits⟩

theorem input_section_sane {h : Header} {s : Section} (made : input_section h = some s) : Sane s := by
  rw [input_section] at made
  by_cases alloc : h.flags.toNat &&& SHF_ALLOC = 0
  · rw [if_pos alloc] at made
    exact absurd made (by simp)
  rw [if_neg alloc] at made
  by_cases other : h.type.toNat ≠ SHT_PROGBITS ∧ h.type.toNat ≠ SHT_NOBITS
  · rw [if_pos other] at made
    exact absurd made (by simp)
  rw [if_neg other] at made
  obtain ⟨group,classified,rfl⟩ := Option.map_eq_some_iff.mp made
  obtain ⟨small,bss⟩ := classify_section_le classified
  refine ⟨small,fun nobits => ⟨bss nobits,?_⟩,?_,?_⟩
  · have type : ¬ (h.type.toNat = SHT_PROGBITS ∧ 0 < h.size.toNat) := fun both => by
      have := both.1.symm.trans nobits
      exact absurd this (by decide)
    exact if_neg type
  · intro d some_
    by_cases bits : h.type.toNat = SHT_PROGBITS ∧ 0 < h.size.toNat
    · obtain rfl := Option.some.inj ((if_pos bits).symm.trans some_)
      exact ⟨by simp,fun nobits => absurd (bits.1.symm.trans nobits) (by decide)⟩
    · exact absurd ((if_neg bits).symm.trans some_) (by simp)
  · intro none_
    by_cases bits : h.type.toNat = SHT_PROGBITS ∧ 0 < h.size.toNat
    · exact absurd ((if_pos bits).symm.trans none_) (by simp)
    · dsimp only
      omega

variable {sections : List Section} {load top : Nat}

theorem parse_sections_sane {headers : List Header}
    (parsed : parse_sections headers = some sections) : ∀ s ∈ sections, Sane s := by
  rw [parse_sections] at parsed
  split_ifs at parsed
  obtain rfl := Option.some.inj parsed
  intro s member
  obtain ⟨h,-,made⟩ := List.mem_filterMap.mp member
  exact input_section_sane made

/-- All sections have an aligned place of their own between two addresses, in the order
    of their groups. -/
structure Arranged (load top : Nat) (sections : List Section) : Prop where
  sane : ∀ s ∈ sections, Sane s
  bounds : ∀ s ∈ sections, load ≤ s.out_vaddr ∧ s.out_vaddr + s.size ≤ top ∧ s.out_vaddr % s.addralign = 0
  groups : ∀ s ∈ sections, ∀ t ∈ sections, s.out_group < t.out_group → Before s t
  order : sections.Pairwise (fun s t => s.out_group = t.out_group → Before s t)

def Apart (s t : Section) : Prop := Before s t ∨ Before t s

theorem arranged_apart (arranged : Arranged load top sections) : sections.Pairwise Apart := by
  have groups := List.pairwise_of_forall_mem_list (l := sections)
    (r := fun s t => (s.out_group < t.out_group → Before s t) ∧ (t.out_group < s.out_group → Before t s))
    (fun s s_member t t_member => ⟨arranged.groups s s_member t t_member,arranged.groups t t_member s s_member⟩)
  refine (groups.and arranged.order).imp ?_
  rintro s t ⟨⟨less,more⟩,same⟩
  rcases lt_trichotomy s.out_group t.out_group with h | h | h
  · exact .inl (less h)
  · exact .inl (same h)
  · exact .inr (more h)

theorem group_range_spec (small : ∀ s ∈ sections, s.out_vaddr + s.size < 2 ^ 32) (group : Nat) :
    (group_range group sections = none ∧ ∀ s ∈ sections, s.out_group ≠ group) ∨
    ∃ start end_, group_range group sections = some (start,end_) ∧
      (∃ s ∈ sections, s.out_group = group ∧ s.out_vaddr = start) ∧
      (∃ s ∈ sections, s.out_group = group ∧ s.out_vaddr + s.size = end_) ∧
      ∀ s ∈ sections, s.out_group = group → start ≤ s.out_vaddr ∧ s.out_vaddr + s.size ≤ end_ := by
  induction sections with
  | nil => exact .inl ⟨rfl,by simp⟩
  | cons s rest ih =>
    obtain ⟨here,later⟩ := List.forall_mem_cons.mp small
    rw [group_range]
    by_cases same : s.out_group = group
    · rw [if_neg (not_not.mpr same)]
      right
      have ends : sec_end s = s.out_vaddr + s.size := wrap_of_lt here
      rcases ih later with ⟨none_,others⟩ | ⟨start,end_,some_,⟨t,t_member,t_group,t_start⟩,⟨u,u_member,u_group,u_end⟩,all⟩
      · rw [none_]
        refine ⟨_,_,rfl,⟨s,List.mem_cons_self,same,rfl⟩,⟨s,List.mem_cons_self,same,ends.symm⟩,?_⟩
        rw [List.forall_mem_cons,ends]
        exact ⟨fun _ => ⟨le_rfl,le_rfl⟩,fun v member group => absurd group (others v member)⟩
      · rw [some_]
        refine ⟨_,_,rfl,?_,?_,?_⟩
        · rcases Nat.le_total s.out_vaddr start with low | low
          · exact ⟨s,List.mem_cons_self,same,(Nat.min_eq_left low).symm⟩
          · exact ⟨t,List.mem_cons_of_mem _ t_member,t_group,by rw [t_start,Nat.min_eq_right low]⟩
        · rw [ends]
          rcases Nat.le_total (s.out_vaddr + s.size) end_ with low | low
          · exact ⟨u,List.mem_cons_of_mem _ u_member,u_group,by rw [u_end,Nat.max_eq_right low]⟩
          · exact ⟨s,List.mem_cons_self,same,(Nat.max_eq_left low).symm⟩
        · rw [List.forall_mem_cons,ends]
          refine ⟨fun _ => ⟨Nat.min_le_left _ _,Nat.le_max_left _ _⟩,fun v member group => ?_⟩
          have bounds := all v member group
          exact ⟨(Nat.min_le_right _ _).trans bounds.1,bounds.2.trans (Nat.le_max_right _ _)⟩
    · rw [if_pos same]
      rcases ih later with ⟨none_,others⟩ | ⟨start,end_,some_,⟨t,t_member,t_facts⟩,⟨u,u_member,u_facts⟩,all⟩
      · left
        rw [none_,List.forall_mem_cons]
        exact ⟨rfl,same,others⟩
      · right
        refine ⟨start,end_,some_,⟨t,List.mem_cons_of_mem _ t_member,t_facts⟩,⟨u,List.mem_cons_of_mem _ u_member,u_facts⟩,?_⟩
        rw [List.forall_mem_cons]
        exact ⟨fun group => absurd group same,all⟩

/-- The range of two groups, as the layout computes it. -/
def segment_range (low high default : Nat) (sections : List Section) : Nat × Nat :=
  let range := match group_range low sections with
    | some range => range
    | none => (default,default)
  match group_range high sections with
  | some (start,end_) => (if (group_range low sections).isSome then range.1 else start,max range.2 end_)
  | none => range

/-- The range holds the sections of the groups and is not larger than it must be. -/
structure Covers (low high default : Nat) (sections : List Section) (range : Nat × Nat) : Prop where
  inside : ∀ s ∈ sections, s.out_group = low ∨ s.out_group = high → range.1 ≤ s.out_vaddr ∧ s.out_vaddr + s.size ≤ range.2
  tight : range = (default,default) ∨ (∃ s ∈ sections, (s.out_group = low ∨ s.out_group = high) ∧ s.out_vaddr = range.1) ∧
    ∃ s ∈ sections, (s.out_group = low ∨ s.out_group = high) ∧ s.out_vaddr + s.size = range.2

theorem segment_range_covers {low high default load top : Nat} {sections : List Section} (arranged : Arranged load top sections)
    (small : top < 2 ^ 32) (less : low < high) (above : ∀ s ∈ sections, s.out_group = high → default ≤ s.out_vaddr) :
    Covers low high default sections (segment_range low high default sections) := by
  have fits : ∀ s ∈ sections, s.out_vaddr + s.size < 2 ^ 32 := fun s member => (arranged.bounds s member).2.1.trans_lt small
  rw [segment_range]
  rcases group_range_spec fits low with ⟨none_,others⟩ | ⟨start,end_,some_,⟨s,s_member,s_group,s_start⟩,
    ⟨t,t_member,t_group,t_end⟩,all⟩ <;>
    rcases group_range_spec fits high with ⟨none',others'⟩ |
      ⟨start',end',some',⟨s',s_member',s_group',s_start'⟩,⟨t',t_member',t_group',t_end'⟩,all'⟩
  · rw [none_,none']
    refine ⟨?_,.inl rfl⟩
    rintro u member (group | group)
    · exact absurd group (others u member)
    · exact absurd group (others' u member)
  · rw [none_,some']
    have first := above t' t_member' t_group'
    have end_up : max default end' = end' := Nat.max_eq_right (by omega)
    dsimp only
    rw [end_up]
    refine ⟨?_,.inr ⟨⟨s',s_member',.inr s_group',s_start'⟩,t',t_member',.inr t_group',t_end'⟩⟩
    rintro u member (group | group)
    · exact absurd group (others u member)
    · exact all' u member group
  · rw [some_,none']
    refine ⟨?_,.inr ⟨⟨s,s_member,.inl s_group,s_start⟩,t,t_member,.inl t_group,t_end⟩⟩
    rintro u member (group | group)
    · exact all u member group
    · exact absurd group (others' u member)
  · rw [some_,some']
    have later : ∀ u ∈ sections, u.out_group = high → end_ ≤ u.out_vaddr := by
      intro u member group
      have before := arranged.groups t t_member u member (by omega)
      exact t_end ▸ before
    have last := later t' t_member' t_group'
    have first := (all s s_member s_group).2
    have end_up : max end_ end' = end' := Nat.max_eq_right (by omega)
    simp only [Option.isSome_some,if_true,end_up]
    refine ⟨?_,.inr ⟨⟨s,s_member,.inl s_group,s_start⟩,t',t_member',.inr t_group',t_end'⟩⟩
    rintro u member (group | group)
    · have bounds := all u member group
      exact ⟨bounds.1,by omega⟩
    · have bounds := all' u member group
      have low' := later u member group
      exact ⟨by omega,bounds.2⟩

/-- The two segments cover the sections, text before data, and what is initialised of
    the data before the rest. -/
structure Divided (load top : Nat) (sections : List Section) (l : Layout) : Prop where
  load_le : load ≤ l.text_start
  text_le : l.text_start ≤ l.text_end
  apart : l.text_end ≤ l.data_start
  data_le : l.data_start ≤ l.data_end
  data_top : l.data_end ≤ top
  text : ∀ s ∈ sections, s.out_group ≤ 1 → l.text_start ≤ s.out_vaddr ∧ s.out_vaddr + s.size ≤ l.text_end
  data : ∀ s ∈ sections, 2 ≤ s.out_group → l.data_start ≤ s.out_vaddr ∧ s.out_vaddr + s.size ≤ l.data_end
  text_used : l.text_start < l.text_end → ∃ s ∈ sections, s.out_vaddr = l.text_start
  data_used : l.data_start < l.data_end → ∃ s ∈ sections, s.out_vaddr = l.data_start
  initialized : ∀ end_, l.initialized = some end_ → l.data_start ≤ end_ ∧ end_ ≤ l.data_end ∧
    (∀ s ∈ sections, s.out_group = 2 → s.out_vaddr + s.size ≤ end_) ∧ ∀ s ∈ sections, s.out_group = 3 → end_ ≤ s.out_vaddr
  uninitialized : l.initialized = none → ∀ s ∈ sections, s.out_group ≠ 2

theorem layout_of_divided (arranged : Arranged load top sections)
    (above : load ≤ top) (small : top < 2 ^ 32) : Divided load top sections (layout_of load sections) := by
  have bounds := arranged.bounds
  have text := @segment_range_covers 0 1 load _ _ _ arranged small (by decide)
    (fun s member _ => (bounds s member).1)
  have later : ∀ s ∈ sections, 2 ≤ s.out_group → (segment_range 0 1 load sections).2 ≤ s.out_vaddr := by
    intro s member group
    rcases text.tight with range | ⟨-,t,t_member,t_group,t_end⟩
    · rw [range]
      exact (bounds s member).1
    · exact t_end ▸ arranged.groups t t_member s member (by omega)
  have data := @segment_range_covers 2 3 ((segment_range 0 1 load sections).2) _ _ _ arranged small
    (by decide) (fun s member group => later s member (by omega))
  have split : layout_of load sections = {
      text_start := (segment_range 0 1 load sections).1
      text_end := (segment_range 0 1 load sections).2
      data_start := (segment_range 2 3 (segment_range 0 1 load sections).2 sections).1
      data_end := (segment_range 2 3 (segment_range 0 1 load sections).2 sections).2
      initialized := (group_range 2 sections).map Prod.snd } := rfl
  rw [split]
  generalize segment_range 0 1 load sections = t at text later data ⊢
  generalize segment_range 2 3 t.2 sections = d at data ⊢
  obtain ⟨t_inside,t_tight⟩ := text
  obtain ⟨d_inside,d_tight⟩ := data
  have t_range : load ≤ t.1 ∧ t.1 ≤ t.2 ∧ t.2 ≤ top ∧ (t.1 < t.2 → ∃ s ∈ sections, s.out_vaddr = t.1) := by
    rcases t_tight with rfl | ⟨⟨s,s_member,s_group,s_start⟩,u,u_member,u_group,u_end⟩
    · exact ⟨le_rfl,le_rfl,above,fun less => absurd less (Nat.lt_irrefl _)⟩
    · have first := bounds s s_member
      have last := bounds u u_member
      have inside := t_inside s s_member s_group
      exact ⟨by omega,by omega,by omega,fun _ => ⟨s,s_member,s_start⟩⟩
  have d_range : t.2 ≤ d.1 ∧ d.1 ≤ d.2 ∧ d.2 ≤ top ∧ (d.1 < d.2 → ∃ s ∈ sections, s.out_vaddr = d.1) := by
    rcases d_tight with rfl | ⟨⟨s,s_member,s_group,s_start⟩,u,u_member,u_group,u_end⟩
    · exact ⟨le_rfl,le_rfl,t_range.2.2.1,fun less => absurd less (Nat.lt_irrefl _)⟩
    · have first := later s s_member (by omega)
      have last := bounds u u_member
      have inside := d_inside s s_member s_group
      exact ⟨by omega,by omega,by omega,fun _ => ⟨s,s_member,s_start⟩⟩
  have sane := arranged.sane
  refine ⟨t_range.1,t_range.2.1,d_range.1,d_range.2.1,d_range.2.2.1,?_,?_,t_range.2.2.2,d_range.2.2.2,?_,?_⟩
  · exact fun s member group => t_inside s member (by omega)
  · intro s member group
    have highest := (sane s member).group
    exact d_inside s member (by omega)
  · intro end_ some_
    rcases group_range_spec (fun s member => (bounds s member).2.1.trans_lt small) 2 with
      ⟨none_,-⟩ | ⟨start,end',range,-,⟨s,s_member,s_group,s_end⟩,all⟩
    · exact absurd some_ (by rw [none_]; simp)
    · have same : end' = end_ := by simpa [range] using some_
      subst same
      have inside := d_inside s s_member (.inl s_group)
      have low : d.1 ≤ end' := by omega
      have high : end' ≤ d.2 := by omega
      refine ⟨low,high,fun u member group => (all u member group).2,fun u member group => ?_⟩
      exact s_end ▸ arranged.groups s s_member u member (by omega)
  · intro none_
    rcases group_range_spec (fun s member => (bounds s member).2.1.trans_lt small) 2 with ⟨-,others⟩ | ⟨_,_,range,-⟩
    · exact others
    · exact absurd none_ (by rw [range]; simp)

/-- Where the bytes of the data segment end and its zeros begin. -/
theorem divided_initialized {l : Layout} (divided : Divided load top sections l) :
    l.data_start ≤ l.initialized.getD l.data_start ∧ l.initialized.getD l.data_start ≤ l.data_end ∧
      (∀ s ∈ sections, s.out_group = 2 → s.out_vaddr + s.size ≤ l.initialized.getD l.data_start) ∧
      ∀ s ∈ sections, s.out_group = 3 → l.initialized.getD l.data_start ≤ s.out_vaddr := by
  cases initialized : l.initialized with
  | none =>
    refine ⟨le_rfl,divided.data_le,fun s member group => absurd group (divided.uninitialized initialized s member),?_⟩
    exact fun s member group => (divided.data s member (by omega)).1
  | some end_ => exact divided.initialized end_ initialized

theorem first_section_spec {load : Nat} {sections : List Section} (some_ : sections ≠ []) :
    (∃ s ∈ sections, s.out_vaddr = first_section_vaddr load sections) ∧
      ∀ s ∈ sections, first_section_vaddr load sections ≤ s.out_vaddr := by
  induction sections with
  | nil => exact absurd rfl some_
  | cons s rest ih =>
    cases rest with
    | nil => simp [first_section_vaddr]
    | cons t rest =>
      obtain ⟨⟨u,u_member,u_first⟩,all⟩ := ih (List.cons_ne_nil _ _)
      have least : first_section_vaddr load (s :: t :: rest) = min s.out_vaddr (first_section_vaddr load (t :: rest)) := rfl
      rw [least]
      constructor
      · rcases Nat.le_total s.out_vaddr (first_section_vaddr load (t :: rest)) with low | low
        · exact ⟨s,List.mem_cons_self,(Nat.min_eq_left low).symm⟩
        · exact ⟨u,List.mem_cons_of_mem _ u_member,by rw [u_first,Nat.min_eq_right low]⟩
      · rw [List.forall_mem_cons]
        exact ⟨Nat.min_le_left _ _,fun v member => (Nat.min_le_right _ _).trans (all v member)⟩

theorem headers_size_le (l : Layout) : headers_size l ≤ 116 := by
  rw [headers_size,Layout.num_phdrs,sizeof_ehdr,sizeof_phdr]
  split <;> split <;> decide

/-- The file offset of the first section is behind the headers and has its place in a page. -/
theorem file_base_spec {headers first : Nat} (small : headers ≤ 116) :
    headers ≤ first_section_file_offset headers first ∧ first_section_file_offset headers first < 0x2000 ∧
      first_section_file_offset headers first % page_size = first % page_size := by
  have page : page_size = 4096 := rfl
  have inside := Nat.mod_lt first (by decide : 0 < page_size)
  rw [first_section_file_offset,vaddr_page_offset]
  split
  · refine ⟨‹_›,by omega,Nat.mod_mod ..⟩
  · rename_i more
    have power : PowerOfTwo page_size := ⟨12,by decide,rfl⟩
    have up : roundUp headers page_size = page_size := by
      rw [roundUp]
      have one : (headers + (page_size - 1)) / page_size = 1 := by
        rw [page]
        omega
      rw [one,Nat.one_mul]
    rw [align_up_eq power (by rw [up]; decide),up,wrap_of_lt (by omega)]
    refine ⟨by omega,by omega,?_⟩
    rw [Nat.add_mod_left,Nat.mod_mod]

theorem file_offset_eq {base first vaddr : Nat} (above : first ≤ vaddr) (fits : base + (vaddr - first) < 2 ^ 32)
    (word : first < 2 ^ 32) : file_offset base first vaddr = base + (vaddr - first) := by
  have diff : wrap (vaddr + (2 ^ 32 - first)) = vaddr - first := by
    have moved : vaddr + (2 ^ 32 - first) = vaddr - first + 2 ^ 32 := by omega
    rw [moved,wrap,Nat.add_mod_right,Nat.mod_eq_of_lt (by omega)]
  rw [file_offset,diff,wrap_of_lt fits]

end MicroOS.LinkerSegments

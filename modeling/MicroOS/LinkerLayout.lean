import MicroOS.Alignment
import MicroOS.Linker

/-!
Where the linker puts the sections. Without wrap-around, and with alignments that are
powers of two, every section gets an aligned place of its own, in the order of the
groups and within a group in the order of the input.
-/
namespace MicroOS.LinkerLayout
open Memory Alignment Linker

def PowerOfTwo (n : Nat) : Prop := ∃ k < 32, n = 2 ^ k

theorem align_up_eq {val align : Nat} (power : PowerOfTwo align) (fits : roundUp val align < 2 ^ 32) :
    align_up val align = roundUp val align := by
  obtain ⟨k,small,rfl⟩ := power
  rw [align_up]
  split
  · rename_i one
    have unit : 2 ^ k = 1 := le_antisymm one (Nat.one_le_two_pow)
    simp [roundUp,unit]
  · exact mask_roundUp (Nat.le_of_lt small) fits

theorem power_positive {n : Nat} (power : PowerOfTwo n) : 0 < n := by
  obtain ⟨k,-,rfl⟩ := power
  positivity

/-- Where the sections of a group end when they are placed from an address on. -/
def extent (group : Nat) : Nat → List Section → Nat
  | addr, [] => addr
  | addr, sec :: rest =>
    if sec.out_group ≠ group then extent group addr rest else extent group (roundUp addr sec.addralign + sec.size) rest

def extents : List Nat → Nat → List Section → Nat
  | [], addr, _ => addr
  | group :: groups, addr, sections => extents groups (roundUp (extent group addr sections) 16) sections

/-- What the layout leaves alone of a section. -/
def shape (sec : Section) : Nat × Nat × Nat × Nat × Option (List UInt8) :=
  (sec.out_group,sec.addralign,sec.size,sec.type,sec.data)

variable {group addr : Nat} {old new sections : List Section}

theorem extent_shape (same : new.map shape = old.map shape) : extent group addr new = extent group addr old := by
  induction old generalizing addr new with
  | nil =>
    rw [List.map_nil,List.map_eq_nil_iff] at same
    rw [same]
  | cons sec rest ih =>
    obtain ⟨sec',rest',rfl,here,later⟩ := List.map_eq_cons_iff.mp same
    simp only [shape,Prod.mk.injEq] at here
    rw [extent,extent,here.1,here.2.1,here.2.2.1]
    split <;> exact ih later

theorem extents_shape {groups : List Nat} {addr : Nat} {old new : List Section} (same : new.map shape = old.map shape) :
    extents groups addr new = extents groups addr old := by
  induction groups generalizing addr with
  | nil => rfl
  | cons group groups ih => rw [extents,extents,extent_shape same,ih]

theorem le_extent (powers : ∀ sec ∈ sections, PowerOfTwo sec.addralign) : addr ≤ extent group addr sections := by
  induction sections generalizing addr with
  | nil => exact le_rfl
  | cons sec rest ih =>
    obtain ⟨here,later⟩ := List.forall_mem_cons.mp powers
    rw [extent]
    split
    · exact ih later
    · have up := le_roundUp addr (power_positive here)
      exact (by omega : addr ≤ roundUp addr sec.addralign + sec.size).trans (ih later)

theorem le_extents {groups : List Nat}
    (powers : ∀ sec ∈ sections, PowerOfTwo sec.addralign) : addr ≤ extents groups addr sections := by
  induction groups generalizing addr with
  | nil => exact le_rfl
  | cons group groups ih =>
    have up := le_roundUp (extent group addr sections) (by decide : 0 < 16)
    exact (le_extent powers).trans (up.trans ih)

/-- The sections of a group are placed from one address up to another. -/
inductive Placed (group : Nat) : Nat → List Section → List Section → Nat → Prop
  | done (addr : Nat) : Placed group addr [] [] addr
  | skip {addr end_ : Nat} {sec : Section} {rest rest' : List Section} (other : sec.out_group ≠ group)
      (later : Placed group addr rest rest' end_) : Placed group addr (sec :: rest) (sec :: rest') end_
  | put {addr here end_ : Nat} {sec : Section} {rest rest' : List Section} (same : sec.out_group = group)
      (above : addr ≤ here) (aligned : here % sec.addralign = 0) (later : Placed group (here + sec.size) rest rest' end_) :
      Placed group addr (sec :: rest) ({ sec with out_vaddr := here, out_offset := 0 } :: rest') end_

theorem place_placed {group addr : Nat} {sections : List Section} (powers : ∀ sec ∈ sections, PowerOfTwo sec.addralign)
    (fits : extent group addr sections < 2 ^ 32) : (place group addr sections).1 = extent group addr sections ∧
      Placed group addr sections (place group addr sections).2 (extent group addr sections) := by
  induction sections generalizing addr with
  | nil => exact ⟨rfl,.done addr⟩
  | cons sec rest ih =>
    obtain ⟨here,later⟩ := List.forall_mem_cons.mp powers
    rw [extent] at fits ⊢
    rw [place]
    split at fits
    · rename_i other
      rw [if_pos other,if_pos other]
      obtain ⟨ends,placed⟩ := ih later fits
      exact ⟨ends,.skip other placed⟩
    · rename_i same
      rw [if_neg same,if_neg same]
      have room := (le_extent later).trans_lt fits
      have up := align_up_eq here ((Nat.le_add_right _ _).trans_lt room)
      dsimp only
      rw [up,wrap_of_lt room]
      obtain ⟨ends,placed⟩ := ih later fits
      exact ⟨ends,.put (not_not.mp same) (le_roundUp _ (power_positive here)) (roundUp_mod ..) placed⟩

/-- One section ends before another begins. -/
def Before (s t : Section) : Prop := s.out_vaddr + s.size ≤ t.out_vaddr

section
variable {group addr end_ : Nat} {old new : List Section} (placed : Placed group addr old new end_)
include placed

theorem placed_le : addr ≤ end_ := by
  induction placed with
  | done => exact le_rfl
  | skip _ _ ih => exact ih
  | put _ above _ _ ih => omega

theorem placed_shape : new.map shape = old.map shape := by
  induction placed with
  | done => rfl
  | skip _ _ ih => rw [List.map_cons,List.map_cons,ih]
  | put _ _ _ _ ih =>
    rw [List.map_cons,List.map_cons,ih]
    rfl

theorem placed_others : ∀ t ∈ new, t.out_group ≠ group → t ∈ old := by
  induction placed with
  | done => simp
  | skip _ _ ih =>
    intro t member other
    rcases List.mem_cons.mp member with rfl | later
    · exact List.mem_cons_self
    · exact List.mem_cons_of_mem _ (ih t later other)
  | put same _ _ _ ih =>
    intro t member other
    rcases List.mem_cons.mp member with rfl | later
    · exact absurd same other
    · exact List.mem_cons_of_mem _ (ih t later other)

theorem placed_bounds :
    ∀ t ∈ new, t.out_group = group → addr ≤ t.out_vaddr ∧ t.out_vaddr + t.size ≤ end_ ∧ t.out_vaddr % t.addralign = 0 := by
  induction placed with
  | done => simp
  | skip other _ ih =>
    intro t member same
    rcases List.mem_cons.mp member with rfl | later
    · exact absurd same other
    · exact ih t later same
  | put _ above aligned later' ih =>
    intro t member same
    rcases List.mem_cons.mp member with rfl | later
    · exact ⟨above,placed_le later',aligned⟩
    · have bounds := ih t later same
      exact ⟨by omega,bounds.2⟩

theorem placed_order : new.Pairwise (fun s t => s.out_group = group → t.out_group = group → Before s t) := by
  induction placed with
  | done => exact .nil
  | skip other _ ih => exact .cons (fun t _ same => absurd same other) ih
  | put _ _ _ later ih => exact .cons (fun t member _ same => (placed_bounds later t member same).1) ih

end

/-- Whatever relates sections outside of the group still does. -/
theorem placed_pairwise {end_ : Nat} {R : Section → Section → Prop} (placed : Placed group addr old new end_)
    (pairs : old.Pairwise (fun s t => s.out_group ≠ group → t.out_group ≠ group → R s t)) :
    new.Pairwise (fun s t => s.out_group ≠ group → t.out_group ≠ group → R s t) := by
  induction placed with
  | done => exact pairs
  | skip _ later ih =>
    obtain ⟨here,rest⟩ := List.pairwise_cons.mp pairs
    exact .cons (fun t member s_other t_other => here t (placed_others later t member t_other) s_other t_other) (ih rest)
  | put same _ _ _ ih =>
    obtain ⟨-,rest⟩ := List.pairwise_cons.mp pairs
    exact .cons (fun t _ other => absurd same other) (ih rest)

/-- The sections of the first groups are placed between two addresses. -/
structure Upto (load group addr : Nat) (sections : List Section) : Prop where
  bounds : ∀ s ∈ sections, s.out_group < group →
    load ≤ s.out_vaddr ∧ s.out_vaddr + s.size ≤ addr ∧ s.out_vaddr % s.addralign = 0
  groups : ∀ s ∈ sections, ∀ t ∈ sections, s.out_group < t.out_group → t.out_group < group → Before s t
  order : sections.Pairwise (fun s t => s.out_group = t.out_group → s.out_group < group → Before s t)

theorem place_upto {load end_ : Nat} (upto : Upto load group addr old)
    (above : load ≤ addr) (placed : Placed group addr old new end_) : Upto load (group + 1) end_ new := by
  have ordered := placed_le placed
  constructor
  · intro s member below
    by_cases same : s.out_group = group
    · have bounds := placed_bounds placed s member same
      exact ⟨above.trans bounds.1,bounds.2⟩
    · have bounds := upto.bounds s (placed_others placed s member same) (by omega)
      exact ⟨bounds.1,bounds.2.1.trans ordered,bounds.2.2⟩
  · intro s s_member t t_member less below
    have s_old := placed_others placed s s_member (by omega)
    by_cases same : t.out_group = group
    · have s_bounds := upto.bounds s s_old (by omega)
      have t_bounds := placed_bounds placed t t_member same
      exact s_bounds.2.1.trans t_bounds.1
    · exact upto.groups s s_old t (placed_others placed t t_member same) less (by omega)
  · have others := placed_pairwise (R := fun s t => s.out_group = t.out_group → s.out_group < group → Before s t) placed
      (upto.order.imp (fun keep _ _ => keep))
    refine (others.and (placed_order placed)).imp ?_
    rintro s t ⟨other,own⟩ same below
    by_cases here : s.out_group = group
    · exact own here (by omega)
    · exact other here (by omega) same (by omega)

theorem upto_mono {load addr' : Nat} (upto : Upto load group addr sections)
    (above : addr ≤ addr') : Upto load group addr' sections where
  bounds s member below := by
    have bounds := upto.bounds s member below
    exact ⟨bounds.1,bounds.2.1.trans above,bounds.2.2⟩
  groups := upto.groups
  order := upto.order

theorem place_groups_upto {load addr count group : Nat} {sections : List Section}
    (powers : ∀ sec ∈ sections, PowerOfTwo sec.addralign) (upto : Upto load group addr sections) (above : load ≤ addr)
    (fits : extents (List.range' group count) addr sections < 2 ^ 32) :
    (place_groups (List.range' group count) addr sections).map shape = sections.map shape ∧
      Upto load (group + count) (extents (List.range' group count) addr sections)
        (place_groups (List.range' group count) addr sections) := by
  induction count generalizing addr group sections with
  | zero => exact ⟨rfl,upto⟩
  | succ count ih =>
    rw [List.range'_succ,extents] at fits ⊢
    rw [place_groups]
    have up := le_roundUp (extent group addr sections) (by decide : 0 < 16)
    have room : roundUp (extent group addr sections) 16 < 2 ^ 32 := (le_extents powers).trans_lt fits
    obtain ⟨ends,placed⟩ := @place_placed group _ _ powers (up.trans_lt room)
    have same := placed_shape placed
    have next := upto_mono (place_upto upto above placed) up
    have sixteen : PowerOfTwo 16 := ⟨4,by decide,rfl⟩
    rw [ends,align_up_eq sixteen room]
    have powers' : ∀ sec ∈ (place group addr sections).2, PowerOfTwo sec.addralign := by
      intro sec member
      have shaped : shape sec ∈ sections.map shape := same ▸ List.mem_map_of_mem member
      obtain ⟨old,old_member,old_shape⟩ := List.mem_map.mp shaped
      have align : old.addralign = sec.addralign := congrArg (fun s => s.2.1) old_shape
      exact align ▸ powers old old_member
    have lower := above.trans ((placed_le placed).trans up)
    rw [← @extents_shape (List.range' (group + 1) count) (roundUp (extent group addr sections) 16) _ _ same]
      at fits ⊢
    obtain ⟨shapes,done⟩ := ih powers' next lower fits
    have number : group + 1 + count = group + (count + 1) := by omega
    exact ⟨shapes.trans same,number ▸ done⟩

end MicroOS.LinkerLayout

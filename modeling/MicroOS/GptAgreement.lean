import MicroOS.GptTables

/-!
What the kernel makes of the tool's tables. Its entries begin every 15 words where the
tool's begin every 16, so behind the first one it reads words of other kinds: with two
partitions or more it never finds as many as there are (`too_few`).
-/
namespace MicroOS.Gpt
open Memory Runs
open Initrd (load64)

/-- The name of a request, without a NULL. -/
def Request.chars (r : Request) : List UInt8 := r.name.elim [] CString.chars

/-- No partition, or one whose type does not begin with a zero word and whose name has at most 32 characters. -/
def Simple (added : List Added) : Prop :=
  added = [] ∨ ∃ p, added = [p] ∧ p.request.type_guid.1.setWidth 32 ≠ 0 ∧ p.request.chars.length ≤ 32

/-- The disk has room for both tables, one after the other. -/
def Roomy (x : Disk × List Added) (_ : Request) : Prop := 67 ≤ x.1.sectors

/-- What the kernel finds at one of its entries. -/
def found_at (parts : List Entry) (i : Nat) : Lba × Lba :=
  (word_of parts (15 * i + 4),word_of parts (15 * i + 5) - word_of parts (15 * i + 4) + 1)

/-- The entries that the kernel does not skip. -/
def taken (parts : List Entry) : List Nat := (List.range 128).filter fun i => (word_of parts (15 * i)).setWidth 32 ≠ 0

theorem filterMap_if {α : Type} (p : Nat → Prop) [DecidablePred p] (g : Nat → α) (l : List Nat) :
    (l.filterMap fun i => if p i then none else some (g i)) = (l.filter fun i => ¬ p i).map g := by
  induction l with
  | nil => rfl
  | cons i l ih =>
    by_cases here : p i
    · simp [here,ih]
    · simp [here,ih]

variable {parts : List Entry}

variable {d : Disk} {n : Nat} {added : List Added} {x : Disk × List Added}

/-- The kernel's walk, by the words of the table. -/
theorem read_gpt_eq (formatted : Formatted d parts) (header entries : Bytes) :
    read_gpt d header entries = some ((taken parts).map (found_at parts)) := by
  obtain ⟨enough,⟨h,has,layout⟩,stored,count,fit⟩ := formatted
  have read : Header.read (read_sectors d 1 1 header) = h :=
    header_read fun i inside => header_sector has (by omega) header (by omega)
  have number : word_at (read_sectors d 1 1 header) 80 = 128 :=
    (congrArg Header.number_of_partition_entries read).trans layout.number_of_partition_entries
  have size : word_at (read_sectors d 1 1 header) 84 = 128 :=
    (congrArg Header.size_of_partition_entry read).trans layout.size_of_partition_entry
  have place : lba_at (read_sectors d 1 1 header) 72 = 2 :=
    (congrArg Header.partition_entry_lba read).trans layout.partition_entry_lba
  unfold read_gpt
  simp only [number,size,place]
  rw [if_neg (not_not.2 (header_signature has (by omega) header))]
  obtain ⟨buffer,is⟩ : ∃ buffer, buffer = read_sectors d 2 (((128 : Word) * 128).toNat / 512 + 1) entries := ⟨_,rfl⟩
  rw [← is]
  have two : (2 : Lba).toNat = 2 := rfl
  have length : ((128 : Word) * 128).toNat / 512 + 1 = 33 := rfl
  have byte (o : Nat) (inside : o < 15872) : buffer o = table parts o := by
    rw [is,length,read_inside (by omega) (by omega),two,← stored o (by omega) (.inr inside)]
  have lba (q : Nat) (inside : 8 * q + 8 ≤ 15872) : lba_at buffer (8 * q) = word_of parts q := by
    rw [← lba_at_table]
    exact lba_at_agree fun k small => byte _ (by omega)
  have walk : ((List.range 128).filterMap fun i => if word_at buffer (i * sizeof_gpt_partition_entry) = 0 then none
      else some (lba_at buffer (i * sizeof_gpt_partition_entry + 32),lba_at buffer (i * sizeof_gpt_partition_entry + 40) -
        lba_at buffer (i * sizeof_gpt_partition_entry + 32) + 1)) =
      (List.range 128).filterMap fun i => if (word_of parts (15 * i)).setWidth 32 = 0 then none else some (found_at parts i) := by
    apply List.filterMap_congr
    intro i member
    have inside := List.mem_range.1 member
    have e0 : i * sizeof_gpt_partition_entry = 8 * (15 * i) := by unfold sizeof_gpt_partition_entry; omega
    have e4 : i * sizeof_gpt_partition_entry + 32 = 8 * (15 * i + 4) := by omega
    have e5 : i * sizeof_gpt_partition_entry + 40 = 8 * (15 * i + 5) := by omega
    rw [e4,e5,e0,word_at_eq,lba _ (by omega),lba _ (by omega),lba _ (by omega)]
    rfl
  have all : (128 : Word).toNat = 128 := rfl
  rw [all,walk,filterMap_if]
  rfl

theorem used_word {q : Nat} (nonzero : word_of parts q ≠ 0) :
    ∃ e, parts[q / 16]? = some e ∧ word_of parts q = e.word (q % 16) := by
  unfold word_of at *
  cases here : parts[q / 16]? with
  | none =>
    rw [here] at nonzero
    exact absurd rfl nonzero
  | some e => exact ⟨e,rfl,rfl⟩

/-- A character that is not there is 0, and so are those behind it. -/
theorem char_zero {name : List UInt8} (plain : 0 ∉ name) {i : Nat} : name.getD i 0 = 0 ↔ name.length ≤ i := by
  rw [List.getD_eq_getElem?_getD]
  constructor
  · intro zero
    by_contra inside
    rw [List.getElem?_eq_getElem (by omega),Option.getD_some] at zero
    exact plain (zero ▸ List.getElem_mem _)
  · intro behind
    rw [List.getElem?_eq_none behind,Option.getD_none]

theorem name_word_zero {e : Entry} (plain : 0 ∉ e.partition_name) (short : e.partition_name.length ≤ 32) : e.word 15 = 0 := by
  have zero (i : Nat) (behind : 32 ≤ i) : e.partition_name.getD i 0 = 0 := (char_zero plain).2 (by omega)
  have number := word_name e
  rw [zero 32 (by decide),zero 33 (by decide),zero 34 (by decide),zero 35 (by decide)] at number
  exact BitVec.eq_of_toNat_eq number

/-- The last word of a name is no start of a partition. -/
theorem name_word {e : Entry} (plain : 0 ∉ e.partition_name) (aligned : (e.word 15).toNat % 2048 = 0) : e.word 15 = 0 := by
  apply name_word_zero plain
  rw [← char_zero plain]
  have number := word_name e
  have low := (e.partition_name.getD 32 0).toNat_lt
  apply UInt8.toNat_inj.1
  change _ = 0
  omega

/-- The words that may be starts lie in different entries, and in none twice; nor in the second. -/
theorem too_few (fit : ∀ e ∈ parts, Fit e n) (several : 2 ≤ parts.length) {places : List (Lba × Lba)}
    (starts : ∀ x ∈ places, x.1.toNat % 2048 = 0 ∧ x.1 ≠ 0) (same : ((taken parts).map (found_at parts)).Perm places) :
    places.length < parts.length := by
  have start (i : Nat) (member : i ∈ taken parts) : (word_of parts (15 * i + 4)).toNat % 2048 = 0 ∧
      word_of parts (15 * i + 4) ≠ 0 :=
    starts _ (same.subset (List.mem_map_of_mem member))
  obtain ⟨entry,is⟩ : ∃ entry : Nat → Nat, entry = fun i => (15 * i + 4) / 16 := ⟨_,rfl⟩
  -- A start is not in the last word of an entry, so no two are in one entry.
  have not_last (i : Nat) (member : i ∈ taken parts) : (15 * i + 4) % 16 ≠ 15 := by
    intro last
    obtain ⟨aligned,nonzero⟩ := start i member
    obtain ⟨e,here,word⟩ := used_word nonzero
    rw [last] at word
    rw [word] at aligned nonzero
    exact nonzero (name_word (fit e (List.mem_of_getElem? here)).plain aligned)
  have distinct : ((taken parts).map entry).Nodup := by
    refine List.Nodup.map_on ?_ (List.nodup_range.filter _)
    intro i member j member' together
    rw [is] at together
    have := not_last i member
    have := not_last j member'
    simp only at together
    omega
  have inside : (taken parts).map entry ⊆ (List.range parts.length).erase 1 := by
    intro j member
    obtain ⟨i,listed,rfl⟩ := List.mem_map.1 member
    obtain ⟨aligned,nonzero⟩ := start i listed
    obtain ⟨e,here,word⟩ := used_word nonzero
    have used : (15 * i + 4) / 16 < parts.length := (List.getElem?_eq_some_iff.1 here).1
    rw [(List.nodup_range).mem_erase_iff,List.mem_range]
    refine ⟨?_,by rw [is]; exact used⟩
    intro second
    rw [is] at second
    simp only at second
    obtain rfl : i = 1 := by omega
    rw [word] at aligned
    change (e.word 3).toNat % 2048 = 0 at aligned
    rw [word_guid] at aligned
    have := (fit e (List.mem_of_getElem? here)).variant
    omega
  have most := (List.subperm_of_subset distinct inside).length_le
  rw [List.length_map,List.length_erase_of_mem (List.mem_range.2 several),List.length_range] at most
  have length := same.length_eq
  rw [List.length_map] at length
  omega

theorem taken_nil : taken [] = [] := by
  unfold taken
  rw [List.filter_eq_nil_iff]
  intro i _
  simp [word_of]

/-- Of one entry the kernel sees the type, and the end of the name as a type again. -/
theorem taken_single (e : Entry) : taken [e] =
    (if (e.word 0).setWidth 32 = 0 then [] else [0]) ++ if (e.word 15).setWidth 32 = 0 then [] else [1] := by
  have all : List.range 128 = 0 :: 1 :: (List.range 126).map (· + 2) := by decide
  have rest : ((List.range 126).map (· + 2)).filter (fun i => (word_of [e] (15 * i)).setWidth 32 ≠ 0) = [] := by
    rw [List.filter_eq_nil_iff]
    intro i member
    obtain ⟨j,-,rfl⟩ := List.mem_map.1 member
    have behind : ([e] : List Entry)[15 * (j + 2) / 16]? = none := List.getElem?_eq_none (by simp; omega)
    simp [word_of,behind]
  have first : word_of [e] (15 * 0) = e.word 0 := rfl
  have second : word_of [e] (15 * 1) = e.word 15 := rfl
  rw [taken,all,List.filter_cons,List.filter_cons,rest,first,second]
  by_cases type : (e.word 0).setWidth 32 = 0
  · by_cases name : (e.word 15).setWidth 32 = 0
    · simp only [ne_eq,type,name,not_true,decide_false,Bool.false_eq_true,if_false,if_true,List.nil_append]
    · simp only [ne_eq,type,name,not_true,not_false_eq_true,decide_false,decide_true,Bool.false_eq_true,if_false,if_true,
        List.nil_append]
  · by_cases name : (e.word 15).setWidth 32 = 0
    · simp only [ne_eq,type,name,not_true,not_false_eq_true,decide_false,decide_true,Bool.false_eq_true,if_false,if_true,
        List.append_nil]
    · simp only [ne_eq,type,name,not_false_eq_true,decide_true,if_false,if_true,List.singleton_append]

theorem name_word_type {e : Entry} (plain : 0 ∉ e.partition_name) :
    (e.word 15).setWidth 32 = 0 ↔ e.partition_name.length ≤ 32 := by
  constructor
  · intro zero
    rw [← char_zero plain]
    have number := word_name e
    have low := congrArg BitVec.toNat zero
    rw [BitVec.toNat_setWidth] at low
    change _ = 0 at low
    have b0 := (e.partition_name.getD 32 0).toNat_lt
    apply UInt8.toNat_inj.1
    change _ = 0
    omega
  · intro short
    rw [name_word_zero plain short]
    rfl

/-- One partition is found, and nothing else, in exactly these cases. -/
theorem single_iff {e : Entry} (fit : Fit e n) (sectors : Lba) (length : e.ending_lba = e.starting_lba + sectors - 1) :
    ((taken [e]).map (found_at [e])).Perm [(e.starting_lba,sectors)] ↔
      e.partition_type_guid.1.setWidth 32 ≠ 0 ∧ e.partition_name.length ≤ 32 := by
  rw [← name_word_type fit.plain,← word_type e]
  have first : found_at [e] 0 = (e.starting_lba,sectors) := by
    have start : word_of [e] (15 * 0 + 4) = e.starting_lba := word_start e
    have last : word_of [e] (15 * 0 + 5) = e.ending_lba := word_end e
    have back : e.starting_lba + sectors - 1 - e.starting_lba + 1 = sectors := by bv_omega
    rw [found_at,start,last,length,back]
  have other : found_at [e] 1 = (0,1) := by
    have start : word_of [e] (15 * 1 + 4) = 0 := rfl
    have last : word_of [e] (15 * 1 + 5) = 0 := rfl
    rw [found_at,start,last]
    rfl
  have apart : (e.starting_lba,sectors) ≠ (0,1) := fun same => fit.nonzero (Prod.mk.inj same).1
  rw [taken_single]
  by_cases type : (e.word 0).setWidth 32 = 0
  · rw [if_pos type,List.nil_append]
    refine ⟨fun same => ?_,fun both => absurd type both.1⟩
    by_cases name : (e.word 15).setWidth 32 = 0
    · rw [if_pos name] at same
      exact absurd same.length_eq (by simp)
    · rw [if_neg name,List.map_singleton,other,List.perm_singleton] at same
      exact absurd (List.cons.inj same).1.symm apart
  · rw [if_neg type]
    by_cases name : (e.word 15).setWidth 32 = 0
    · rw [if_pos name,List.append_nil,List.map_singleton,first]
      exact ⟨fun _ => ⟨type,name⟩,fun _ => List.Perm.refl _⟩
    · rw [if_neg name]
      refine ⟨fun same => ?_,fun both => absurd both.2 name⟩
      exact absurd same.length_eq (by simp)

/-- The entry of a partition that was added. -/
structure Tells (e : Entry) (p : Added) : Prop where
  start : e.starting_lba = p.first_lba
  last : e.ending_lba = p.first_lba + p.request.sectors - 1
  type : e.partition_type_guid = p.request.type_guid
  name : e.partition_name = p.request.chars

theorem told_by (tells : List.Forall₂ Tells parts added) {q : Added} (listed : q ∈ added) : ∃ f ∈ parts, Tells f q := by
  induction tells with
  | nil => cases listed
  | @cons e p parts added told _ ih =>
    obtain rfl | later := List.mem_cons.1 listed
    · exact ⟨e,List.mem_cons_self,told⟩
    · obtain ⟨f,stored,tell⟩ := ih later
      exact ⟨f,List.mem_cons_of_mem _ stored,tell⟩

def Kept (x : Disk × List Added) : Prop := ∃ parts, Formatted x.1 parts ∧ List.Forall₂ Tells parts x.2

theorem agreement_iff (kept : Kept x) : Agreement x ↔ Simple x.2 := by
  obtain ⟨parts,formatted,tells⟩ := kept
  have found : Agreement x ↔ ((taken parts).map (found_at parts)).Perm (x.2.map fun p => (p.first_lba,p.request.sectors)) := by
    unfold Agreement
    simp only [read_gpt_eq formatted,Option.some.injEq,exists_eq_left']
    exact ⟨fun all => all (fun _ => 0) (fun _ => 0),fun same _ _ => same⟩
  rw [found]
  obtain ⟨d,added⟩ := x
  simp only at tells formatted ⊢
  cases tells with
  | nil => simp [taken_nil,Simple]
  | @cons e p parts added told later =>
    cases later with
    | nil =>
      have fit := formatted.fit e (List.mem_singleton_self e)
      have length : e.ending_lba = e.starting_lba + p.request.sectors - 1 := by rw [told.start,told.last]
      have single := single_iff fit p.request.sectors length
      rw [told.start,told.type,told.name] at single
      rw [List.map_singleton,single]
      simp [Simple]
    | @cons e' p' parts added told' later =>
      have several : ¬ Simple (p :: p' :: added) := by
        rintro (none | ⟨q,one,-⟩)
        · cases none
        · cases one
      have lengths := later.length_eq
      refine ⟨fun same => ?_,fun simple => absurd simple several⟩
      have fewer := too_few formatted.fit (by simp) (fun x member => ?_) same
      · simp only [List.length_map,List.length_cons] at fewer
        omega
      · obtain ⟨q,listed,rfl⟩ := List.mem_map.1 member
        obtain ⟨f,stored,tell⟩ := told_by (.cons told (.cons told' later)) listed
        have fit := formatted.fit f stored
        rw [← tell.start]
        exact ⟨fit.aligned,fit.nonzero⟩

theorem kept_added {d' : Disk} {r : Request} {sector buffer : Bytes} {start : Lba}
    (kept : Kept (d,added)) (room : 67 ≤ d.sectors) (stored : add_gpt_partition d r sector buffer = some (d',start)) :
    Kept (d',added ++ [⟨start,r⟩]) := by
  obtain ⟨parts,formatted,tells⟩ := kept
  obtain ⟨nowhere,somewhere⟩ := add_refines formatted room r sector buffer
  cases placed : place d.sectors parts r with
  | none =>
    rw [nowhere placed] at stored
    cases stored
  | some start' =>
    obtain ⟨d'',same,-,formatted'⟩ := somewhere start' placed
    rw [same] at stored
    obtain ⟨rfl,rfl⟩ := Prod.mk.inj (Option.some.inj stored)
    exact ⟨_,formatted',List.rel_append tells (.cons ⟨rfl,rfl,rfl,rfl⟩ .nil)⟩

theorem reached_kept (reached : Reached (guarded gpt_system Roomy) x) : Kept x := by
  refine guarded_invariant ?_ ?_ reached
  · rintro ⟨d,added⟩ ⟨⟨d0,device_id,sector,created⟩,none⟩
    simp only at created none
    rw [none]
    exact ⟨[],create_gpt_spec created,.nil⟩
  · rintro ⟨d,added⟩ r ⟨d',added'⟩ kept ⟨sector,buffer,start,stored,account⟩ room
    simp only at account
    rw [account]
    exact kept_added kept room stored

/-- The kernel finds the partitions of the tool, and nothing else, exactly when there is none, or
    one with a type that does not begin with a zero word and a name of at most 32 characters. -/
theorem gpt_agreement {x : Disk × List Added} (reached : Reached (guarded gpt_system Roomy) x) :
    Agreement x ↔ Simple x.2 := agreement_iff (reached_kept reached)

/-- A disk of 4 MB without anything on it. -/
def blank : Disk := ⟨fun _ => 0,8192,by decide⟩

/-- One sector for data, without a name. -/
def one_sector : Request := ⟨0,1,(0x4433B9E5EBD0A0A2,0xC79926B7B668C087),none⟩

theorem blank_created : ∃ d, create_gpt blank 0 (fun _ => 0) = some d ∧ d.sectors = 8192 := by
  have unread : read_gpt_header blank (fun _ => 0) = none := by
    unfold read_gpt_header
    exact if_neg (by decide)
  unfold create_gpt
  rw [if_neg (by decide),unread]
  exact ⟨_,rfl,rfl⟩

/-- The first partition goes to sector 2048, and the next one to sector 4096. -/
theorem one_added : ∃ d d', (∃ device_id sector, create_gpt blank device_id sector = some d) ∧ d.sectors = 8192 ∧
    (∃ sector buffer, add_gpt_partition d one_sector sector buffer = some (d',2048)) ∧ d'.sectors = 8192 ∧
    Formatted d' [entry_of one_sector 0 2048] := by
  obtain ⟨d,created,sectors⟩ := blank_created
  obtain ⟨d',stored,same,formatted⟩ := (add_refines (create_gpt_spec created) (by rw [sectors]; decide) one_sector (fun _ => 0)
    (fun _ => 0)).2 2048 (by rw [sectors]; decide)
  exact ⟨d,d',⟨0,_,created⟩,sectors,⟨_,_,stored⟩,same.trans sectors,formatted⟩

theorem gpt_agreement_one : ∃ d : Disk, Agreement (d,[⟨2048,one_sector⟩]) := by
  obtain ⟨d,d',created,sectors,stored,-⟩ := one_added
  obtain ⟨device_id,buffer,created⟩ := created
  obtain ⟨sector,buffer',stored⟩ := stored
  have reached : Reached (guarded gpt_system Roomy) (d',[⟨2048,one_sector⟩]) :=
    ⟨(d,[]),[one_sector],⟨⟨blank,device_id,buffer,created⟩,rfl⟩,
      .step ⟨⟨sector,buffer',2048,stored,rfl⟩,by change 67 ≤ d.sectors; rw [sectors]; decide⟩ (.done _)⟩
  exact ⟨d',(gpt_agreement reached).2 (.inr ⟨_,rfl,by decide,by decide⟩)⟩

/-- The second partition is not found. -/
theorem second_missing : ¬ ∀ x, Reached gpt_system x → Agreement x := by
  obtain ⟨d,d',⟨device_id,buffer,created⟩,-,⟨sector,buffer',stored⟩,sectors,formatted⟩ := one_added
  obtain ⟨d'',again,-⟩ := (add_refines formatted (by rw [sectors]; decide) one_sector (fun _ => 0) (fun _ => 0)).2 4096
    (by rw [sectors]; decide)
  have reached : Reached gpt_system (d'',[⟨2048,one_sector⟩,⟨4096,one_sector⟩]) :=
    ⟨(d,[]),[one_sector,one_sector],⟨⟨blank,device_id,buffer,created⟩,rfl⟩,.step (t := (d',[⟨2048,one_sector⟩]))
      ⟨sector,buffer',2048,stored,rfl⟩ (.step ⟨_,_,4096,again,rfl⟩ (.done _))⟩
  have kept : Kept (d'',[⟨2048,one_sector⟩,⟨4096,one_sector⟩]) := by
    have first : Kept (d',[⟨2048,one_sector⟩]) := ⟨_,formatted,.cons ⟨rfl,rfl,rfl,rfl⟩ .nil⟩
    exact kept_added first (by rw [sectors]; decide) again
  intro all
  obtain none | ⟨p,one,-⟩ := (agreement_iff kept).1 (all _ reached)
  · cases none
  · cases one

end MicroOS.Gpt

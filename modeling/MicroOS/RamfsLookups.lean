import MicroOS.Ramfs

/-!
What lookups in the ramfs do. `Leads` is where a list of names leads; `Clear` are the
lists of names that can be looked up at all: a lookup looks at the right half of every
union and breaks nothing exactly when its path is clear (`walk_fine`).
-/
namespace MicroOS.Ramfs
open Vfs

/-- From a node down along names, each time to the first child of that name. -/
inductive Leads (t : Tree) : Nat → List Name → Nat → Prop
  | here (d : Nat) : Leads t d [] d
  | down {d e f : Nat} {childs : List (Option Nat)} {name : Name} {names : List Name}
      (dir : t.content d = some (.dir childs)) (child : t.child name childs = some e) (rest : Leads t e names f) :
      Leads t d (name :: names) f

/-- Every name on the way fits the buffer, and is looked up in a directory. -/
def Clear (t : Tree) (names : List Name) (d : Nat) : Prop :=
  ∀ before name behind e, names = before ++ name :: behind → Leads t d before e →
    name.length < 128 ∧ t.type e = some .dir

/-- The half of the union that the type of the node names. -/
def Right (t : Tree) : Look → Prop
  | .childs id => t.type id = some .dir
  | .data id => t.type id = some .file

/-- A call that breaks nothing and takes every node for what it is. -/
def Fine {α : Type} (t : Tree) (r : Except Fault α × List Look) : Prop :=
  (∃ a, r.1 = .ok a) ∧ ∀ look ∈ r.2, Right t look

theorem type_dir {t : Tree} {id : Nat} (is : t.type id = some .dir) :
    ∃ childs, t.content id = some (.dir childs) := by
  obtain ⟨content,found,type⟩ := Option.map_eq_some_iff.1 is
  cases content with
  | file data => cases type
  | dir childs => exact ⟨childs,found⟩

theorem type_file {t : Tree} {id : Nat} (is : t.type id = some .file) :
    ∃ data, t.content id = some (.file data) := by
  obtain ⟨content,found,type⟩ := Option.map_eq_some_iff.1 is
  cases content with
  | file data => exact ⟨data,found⟩
  | dir childs => cases type

theorem type_of {t : Tree} {id : Nat} {content : Content} (found : t.content id = some content) :
    t.type id = some content.type := by rw [Tree.type,found]; rfl

theorem childs_dir {t : Tree} {id : Nat} {childs : List (Option Nat)} (found : t.content id = some (.dir childs)) :
    t.childs id = .ok childs := by rw [Tree.childs,found]

@[simp] theorem child_replicate (t : Tree) (name : Name) (n : Nat) : t.child name (List.replicate n none) = none := by
  induction n with
  | zero => rfl
  | succ n ih => exact ih

theorem childs_new {t : Tree} {id : Nat} (found : t.content id = some (.file .new)) :
    t.childs id = .ok (List.replicate CHILDS none) := by
  rw [Tree.childs,found]
  rfl

theorem clear_nil (t : Tree) (d : Nat) : Clear t [] d := by
  intro before name behind e split
  simp at split

theorem clear_cons (t : Tree) (name : Name) (names : List Name) (d : Nat) :
    Clear t (name :: names) d ↔ name.length < 128 ∧ t.type d = some .dir ∧
      ∀ childs e, t.content d = some (.dir childs) → t.child name childs = some e → Clear t names e := by
  constructor
  · intro clear
    obtain ⟨short,dir⟩ := clear [] name names d rfl (.here d)
    refine ⟨short,dir,fun childs e content child before other behind f split leads => ?_⟩
    exact clear (name :: before) other behind f (by rw [split]; rfl) (.down content child leads)
  · rintro ⟨short,dir,rest⟩ before other behind f split leads
    cases leads with
    | here =>
      cases split
      exact ⟨short,dir⟩
    | down content child leads =>
      cases split
      exact rest _ _ content child _ _ _ _ rfl leads

/-- A lookup is fine exactly when the path is clear. -/
theorem walk_fine (t : Tree) (names : List Name) (d : Nat) : Fine t (walk t names d) ↔ Clear t names d := by
  induction names generalizing d with
  | nil => exact ⟨fun _ => clear_nil t d,fun _ => ⟨⟨_,rfl⟩,by simp [walk]⟩⟩
  | cons name names ih =>
    rw [clear_cons]
    unfold walk
    by_cases long : 128 ≤ name.length
    · rw [if_pos long]
      constructor
      · rintro ⟨⟨a,broken⟩,-⟩; cases broken
      · rintro ⟨short,-⟩; omega
    rw [if_neg long]
    by_cases dir : t.type d = some .dir
    · obtain ⟨childs,content⟩ := type_dir dir
      rw [childs_dir content]
      dsimp only
      cases child : t.child name childs with
      | none =>
        refine ⟨fun _ => ⟨by omega,dir,?_⟩,fun _ => ⟨⟨_,rfl⟩,by simpa [Right] using dir⟩⟩
        intro childs' e content' child'
        rw [content] at content'
        cases content'
        rw [child] at child'
        cases child'
      | some e =>
        have fine : Fine t ((walk t names e).1,.childs d :: (walk t names e).2) ↔ Fine t (walk t names e) := by
          simp only [Fine,List.forall_mem_cons,Right,dir,true_and]
        dsimp only
        rw [fine,ih e]
        constructor
        · intro clear
          refine ⟨by omega,dir,fun childs' e' content' child' => ?_⟩
          rw [content] at content'
          cases content'
          rw [child] at child'
          cases child'
          exact clear
        · rintro ⟨-,-,rest⟩
          exact rest childs e content child
    · constructor
      · rintro ⟨-,looks⟩
        refine absurd (looks (.childs d) ?_) dir
        cases t.childs d with
        | error fault => simp
        | ok childs =>
          dsimp only
          cases t.child name childs <;> simp
      · rintro ⟨-,is,-⟩
        exact absurd is dir

theorem ramfs_find_fine (t : Tree) (path : Name) : Fine t (ramfs_find t path 0) ↔ Clear t (components path) 0 := by
  rw [ramfs_find_eq,walk_fine]

/-- What a fine lookup finds is where the names lead. -/
theorem walk_leads {t : Tree} {names : List Name} {d : Nat} (clear : Clear t names d) (f : Nat) :
    (walk t names d).1 = .ok (some f) ↔ Leads t d names f := by
  induction names generalizing d with
  | nil =>
    constructor
    · intro found
      cases found
      exact .here _
    · intro leads
      cases leads
      rfl
  | cons name names ih =>
    obtain ⟨short,dir,rest⟩ := (clear_cons t name names d).1 clear
    obtain ⟨childs,content⟩ := type_dir dir
    rw [walk,if_neg (by omega),childs_dir content]
    dsimp only
    constructor
    · intro found
      cases child : t.child name childs with
      | none => rw [child] at found; cases found
      | some e =>
        rw [child] at found
        exact .down content child ((ih (rest childs e content child)).1 found)
    · intro leads
      cases leads with
      | down content' child leads =>
        rw [content] at content'
        cases content'
        rw [child]
        exact (ih (rest childs _ content child)).2 leads

theorem leads_unique {t : Tree} {names : List Name} {d e f : Nat} (one : Leads t d names e) (other : Leads t d names f) :
    e = f := by
  induction one with
  | here d => cases other; rfl
  | down content child rest ih =>
    cases other with
    | down content' child' rest' =>
      rw [content] at content'
      cases content'
      rw [child] at child'
      cases child'
      exact ih rest'

theorem leads_append {t : Tree} {names more : List Name} {d f : Nat} :
    Leads t d (names ++ more) f ↔ ∃ e, Leads t d names e ∧ Leads t e more f := by
  induction names generalizing d with
  | nil =>
    constructor
    · exact fun leads => ⟨d,.here d,leads⟩
    · rintro ⟨e,here,leads⟩
      cases here
      exact leads
  | cons name names ih =>
    constructor
    · intro leads
      cases leads with
      | down content child rest =>
        obtain ⟨e,first,second⟩ := ih.1 rest
        exact ⟨e,.down content child first,second⟩
    · rintro ⟨e,first,second⟩
      cases first with
      | down content child rest => exact .down content child (ih.2 ⟨e,rest,second⟩)

/-- The first names of a clear path are clear. -/
theorem clear_append {t : Tree} {names more : List Name} {d : Nat} (clear : Clear t (names ++ more) d) :
    Clear t names d :=
  fun before name behind e split leads => clear before name (behind ++ more) e (by rw [split]; simp) leads

/-- `r` is the last piece of the path that has anything in it behind its slash, up to a slash at the end. -/
def Cut (path q r : Name) : Prop := path = q ++ slash :: r ∧ r ≠ [] ∧ (copy_until slash r).2 = []

theorem copy_parts (path : Name) :
    path = (copy_until slash path).1 ∧ (copy_until slash path).2 = [] ∨
      path = (copy_until slash path).1 ++ slash :: (copy_until slash path).2 := by
  induction path with
  | nil => exact .inl ⟨rfl,rfl⟩
  | cons c path ih =>
    unfold copy_until
    split_ifs with here
    · exact .inr (by rw [here]; rfl)
    · obtain ⟨whole,rest⟩ | parts := ih
      · exact .inl ⟨by rw [← whole],rest⟩
      · exact .inr (by rw [List.cons_append,← parts])

theorem copy_slash {q r : Name} (nonempty : r ≠ []) : (copy_until slash (q ++ slash :: r)).2 ≠ [] := by
  induction q with
  | nil => simpa [copy_until] using nonempty
  | cons c q ih =>
    rw [List.cons_append,copy_until]
    split_ifs
    · simp
    · exact ih

section
variable {path : Name} (short : ∀ name ∈ components path, name.length < 128)
include short

/-- The names that `ramfs_split_path` comes by fit its buffer when the components do. -/
theorem copied_short :
    (copy_until slash path).1.length < 128 ∧ ∀ name ∈ components (copy_until slash path).2, name.length < 128 := by
  have parts : components path = if (copy_until slash path).1 = [] then components (copy_until slash path).2
      else (copy_until slash path).1 :: components (copy_until slash path).2 := by
    rw [components,split_eq]
  rw [parts] at short
  split_ifs at short with empty
  · exact ⟨by rw [empty]; decide,short⟩
  · exact ⟨short _ List.mem_cons_self,fun name member => short name (List.mem_cons_of_mem _ member)⟩

theorem last_part_spec : last_part path = .ok none ∧ (copy_until slash path).2 = [] ∨
      ∃ q r, last_part path = .ok (some r) ∧ Cut path q r := by
  induction size : path.length using Nat.strong_induction_on generalizing path with
  | _ n ih =>
    obtain ⟨fits,rest⟩ := copied_short short
    rw [last_part]
    rw [if_neg (by omega)]
    by_cases ends : (copy_until slash path).2 = []
    · rw [dif_pos ends]
      exact .inl ⟨rfl,ends⟩
    · rw [dif_neg ends]
      right
      obtain ⟨-,none⟩ | parts := copy_parts path
      · exact absurd none ends
      have shorter : (copy_until slash path).2.length < n := by
        rw [← size]
        conv_rhs => rw [parts]
        simp
        omega
      obtain ⟨found,last⟩ | ⟨q,r,found,cut,nonempty,last⟩ := ih _ shorter rest rfl
      · exact ⟨_,_,by rw [found]; rfl,parts,ends,last⟩
      · refine ⟨(copy_until slash path).1 ++ slash :: q,r,by rw [found]; rfl,?_,nonempty,last⟩
        conv_lhs => rw [parts,cut]
        simp

/-- The directory and the name of a path that has a slash before its end. -/
theorem split_spec (slashed : ∃ q r, path = q ++ slash :: r ∧ r ≠ []) (fits : ∀ q r, Cut path q r → q.length ≤ 511) :
    ∃ q r, ramfs_split_path path = .ok (q,r) ∧ Cut path q r := by
  obtain ⟨found,ends⟩ | ⟨q,r,found,cut⟩ := last_part_spec short
  · obtain ⟨q,r,rfl,nonempty⟩ := slashed
    exact absurd ends (copy_slash nonempty)
  · refine ⟨q,r,?_,cut⟩
    have count : path.length - r.length - 1 = q.length := by
      rw [cut.1]
      simp
      omega
    rw [ramfs_split_path,found]
    dsimp only
    rw [count,if_neg (by have := fits q r cut; omega),cut.1,List.take_left]

end

theorem cut_components {path q r : Name} (cut : Cut path q r) :
    components path = components q ++ components r := by rw [cut.1,components_append]

/-- Where the loop of `ramfs_dir_at` stops, when it starts from another count than 0. -/
theorem stops_at_eq (childs : List (Option Nat)) {count : Word} (positive : count ≠ 0) :
    stops_at childs count = (childs.filterMap id)[count.toNat - 1]?.map some := by
  induction childs generalizing count with
  | nil => rfl
  | cons child childs ih =>
    have large : count.toNat ≠ 0 := fun z => positive (BitVec.eq_of_toNat_eq z)
    unfold stops_at
    cases child with
    | none =>
      simp only [Option.isSome_none,Bool.false_eq_true,if_false,if_neg positive,List.filterMap_cons,id]
      exact ih positive
    | some e =>
      simp only [Option.isSome_some,if_true,List.filterMap_cons,id]
      by_cases last : count - 1 = 0
      · rw [if_pos last]
        have one : count.toNat - 1 = 0 := by bv_omega
        rw [one]
        rfl
      · rw [if_neg last,ih last]
        have next : count.toNat - 1 = (count - 1).toNat - 1 + 1 := by bv_omega
        rw [next,List.getElem?_cons_succ]
        rfl

theorem some_some (found : Option Nat) : found.map some ≠ some none := by
  cases found <;> simp

/-- The loop does not stop at a free place, unless it starts there at the end of its count. -/
theorem stops_somewhere {childs : List (Option Nat)} {idx : Word} (first : childs.head? = some none → idx ≠ -1) :
    stops_at childs (idx + 1) ≠ some none := by
  by_cases zero : idx + 1 = 0
  · have minus : idx = -1 := by bv_omega
    cases childs with
    | nil => simp [stops_at]
    | cons child childs =>
      cases child with
      | none => exact absurd minus (first rfl)
      | some e =>
        rw [zero,stops_at]
        simp only [Option.isSome_some,if_true]
        rw [if_neg (by decide),stops_at_eq childs (by decide)]
        exact some_some _
  · rw [stops_at_eq childs zero]
    exact some_some _

end MicroOS.Ramfs

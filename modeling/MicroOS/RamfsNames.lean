import MicroOS.RamfsTypes

/-!
The names of the ramfs. `ramfs_mkdir` and `ramfs_touch` find the directory and the name to
create with another routine than lookups split their paths with. Where the two agree, the
new node is found under its path, every other path leads where it led before, and the names
in a directory stay apart.
-/
namespace MicroOS.Ramfs
open Runs Vfs

/-- The names as the lookups compare them. -/
def lower (names : List Name) : List Name := names.map (List.map tolower)

/-- The names in a directory are not empty, have no slash and differ without regard to case. -/
def Named (t : Tree) : Prop :=
  ∀ d childs, t.content d = some (.dir childs) →
    (∀ e, some e ∈ childs → t.name e ≠ [] ∧ slash ∉ t.name e) ∧
      ∀ (i j e f : Nat), childs[i]? = some (some e) → childs[j]? = some (some f) → same_name (t.name e) (t.name f) = true → i = j

/-- Every node stands in one place, and below an older node. -/
structure Treelike (t : Tree) : Prop where
  place : ∀ (d d' : Nat) childs childs' (i j e : Nat), t.content d = some (.dir childs) → t.content d' = some (.dir childs') →
    childs[i]? = some (some e) → childs'[j]? = some (some e) → d = d'
  down : ∀ d childs e, t.content d = some (.dir childs) → some e ∈ childs → d < e

/-- What `ramfs_mkdir` and `ramfs_touch` need to create what their path says: if nothing is
    there, and the directory is there and has a free place, the path does not end in a
    slash, the name leaves room for its end, and there is a page. -/
def Tidy (room : Bool) (t : Tree) (path : Name) : Prop :=
  Clear t (components path) 0 ∧ ((∀ id, ¬ Leads t 0 (components path) id) →
    (∀ name ∈ components path, name.length < 128) ∧ (∃ q r, path = q ++ slash :: r ∧ r ≠ []) ∧
      (∀ q r, Cut path q r → q.length ≤ 511) ∧
      ∀ names name d childs, components path = names ++ [name] → Leads t 0 names d →
        t.content d = some (.dir childs) → none ∈ childs →
          path.getLast? ≠ some slash ∧ name.length ≤ 91 ∧ room = true)

/-- A call as it should be: with a free place the path leads to a node of the type, or to
    the one it led to before; paths of other names lead where they led; without the
    directory nothing changes. -/
structure Created (t u : Tree) (type : NodeType) (path : Name) : Prop where
  found : ∀ names name d childs, components path = names ++ [name] → Leads t 0 names d →
    t.content d = some (.dir childs) → none ∈ childs → ∃ id, (ramfs_find u path 0).1 = .ok (some id) ∧
      ((ramfs_find t path 0).1 = .ok (some id) ∨ u.type id = some type)
  others : ∀ other, (∀ name ∈ components other, name.length < 128) →
    lower (components other) ≠ lower (components path) → (ramfs_find u other 0).1 = (ramfs_find t other 0).1
  nowhere : (∀ names name d, components path = names ++ [name] → Leads t 0 names d → t.type d ≠ some .dir) → u = t

variable {childs : List (Option Nat)} {b path q r : Name} {names : List Name} {d f id : Nat} {data : RamfsFile.Node}

theorem child_none {t : Tree} {name : Name} :
    t.child name childs = none ↔ ∀ e, some e ∈ childs → same_name name (t.name e) = false := by
  induction childs with
  | nil => simp [Tree.child]
  | cons child childs ih =>
    cases child with
    | none => simp [Tree.child,ih]
    | some e =>
      unfold Tree.child
      by_cases same : same_name name (t.name e)
      · simp [same]
      · simp [same,ih]

theorem child_some {t : Tree} {name : Name} {e : Nat}
    (found : t.child name childs = some e) : some e ∈ childs ∧ same_name name (t.name e) = true := by
  induction childs with
  | nil => cases found
  | cons child childs ih =>
    cases child with
    | none =>
      obtain ⟨member,same⟩ := ih found
      exact ⟨List.mem_cons_of_mem _ member,same⟩
    | some f =>
      unfold Tree.child at found
      split_ifs at found with same
      · cases found
        exact ⟨List.mem_cons_self,same⟩
      · obtain ⟨member,same⟩ := ih found
        exact ⟨List.mem_cons_of_mem _ member,same⟩

theorem child_congr {t u : Tree} {name : Name}
    (same : ∀ e, some e ∈ childs → u.name e = t.name e) : u.child name childs = t.child name childs := by
  induction childs with
  | nil => rfl
  | cons child childs ih =>
    have rest := ih fun e member => same e (List.mem_cons_of_mem _ member)
    cases child with
    | none => exact rest
    | some e =>
      unfold Tree.child
      rw [same e List.mem_cons_self,rest]

/-- A lookup in a directory with one child more. -/
theorem child_set {t : Tree} {name : Name} {childs : List (Option Nat)} {place n : Nat}
    (free : childs[place]? = some none) :
    t.child name (childs.set place (some n)) =
      if same_name name (t.name n) = true ∧ t.child name (childs.take place) = none then some n
      else t.child name childs := by
  induction childs generalizing place with
  | nil => simp at free
  | cons child childs ih =>
    cases place with
    | zero =>
      cases free
      simp [Tree.child]
    | succ place =>
      have later := @ih place (by simpa using free)
      cases child with
      | none => simpa [Tree.child] using later
      | some e =>
        rw [List.set_cons_succ,List.take_succ_cons]
        simp only [Tree.child]
        by_cases here : same_name name (t.name e)
        · simp [here]
        · simpa [here] using later

theorem same_name_trans {a c : Name} (first : same_name a b = true) (second : same_name b c = true) :
    same_name a c = true := by
  rw [same_name_iff] at *
  exact first.trans second

theorem same_name_symm {a : Name} (same : same_name a b = true) : same_name b a = true := by
  rw [same_name_iff] at *
  exact same.symm

/-- Names that differ in case only lead to the same child. -/
theorem child_same {t : Tree} {a : Name} (same : same_name a b = true) : t.child a childs = t.child b childs := by
  have both (c : Name) : same_name a c = same_name b c := by
    rw [Bool.eq_iff_iff]
    exact ⟨same_name_trans (same_name_symm same),same_name_trans same⟩
  induction childs with
  | nil => rfl
  | cons child childs ih =>
    cases child with
    | none => exact ih
    | some e => simp only [Tree.child,both,ih]

section
variable {t : Tree} {type : NodeType} {d place : Nat} {childs : List (Option Nat)} {r : Name}

theorem attach_name (inside : d < t.nodes.length) (id : Nat) :
    (t.attach type d childs place r).name id = if id = t.nodes.length then stored_name type r else t.name id := by
  unfold Tree.name Tree.attach
  dsimp only
  split_ifs with new
  · subst new
    rw [List.getElem?_append_right (by simp),List.length_set,Nat.sub_self]
    rfl
  · by_cases less : id < t.nodes.length
    · rw [List.getElem?_append_left (by simpa using less)]
      by_cases here : id = d
      · subst here
        rw [List.getElem?_set_self inside]
        rfl
      · rw [List.getElem?_set_ne (Ne.symm here)]
    · rw [List.getElem?_append_right (by simp; omega),List.length_set,List.getElem?_eq_none (by simp; omega),
        List.getElem?_eq_none (by omega)]

/-- What a new child needs: a directory with a free place and no child of that name. -/
structure Fresh (t : Tree) (d place : Nat) (childs : List (Option Nat)) (r : Name) : Prop where
  sound : Sound t
  dir : t.content d = some (.dir childs)
  free : childs[place]? = some none
  new : t.child r childs = none
  short : r.length ≤ 91

section
variable (fresh : Fresh t d place childs r)
include fresh

theorem Fresh.inside : d < t.nodes.length := content_inside fresh.dir

theorem Fresh.name (id : Nat) :
    (t.attach type d childs place r).name id = if id = t.nodes.length then r else t.name id := by
  have stored : stored_name type r = r := if_neg (by have := fresh.short; omega)
  rw [attach_name fresh.inside,stored]

/-- Lookups among the children there were. -/
theorem Fresh.child_old {f : Nat} {others : List (Option Nat)}
    (dir : t.content f = some (.dir others)) {part : List (Option Nat)} (sub : ∀ e, some e ∈ part → some e ∈ others)
    (name : Name) : (t.attach type d childs place r).child name part = t.child name part := by
  refine child_congr fun e member => ?_
  have older := (fresh.sound.childs f others dir).2 e (sub e member)
  rw [fresh.name,if_neg (by omega)]

/-- Lookups in the directory of the new node. -/
theorem Fresh.child_new (name : Name) :
    (t.attach type d childs place r).child name (childs.set place (some t.nodes.length)) =
      if same_name name r then some t.nodes.length else t.child name childs := by
  have part : (t.attach type d childs place r).child name (childs.take place) = t.child name (childs.take place) :=
    fresh.child_old fresh.dir (fun e member => List.mem_of_mem_take member) name
  have all : (t.attach type d childs place r).child name childs = t.child name childs :=
    fresh.child_old fresh.dir (fun e member => member) name
  rw [child_set fresh.free,part,all,fresh.name,if_pos rfl]
  by_cases same : same_name name r
  · have missing : t.child name (childs.take place) = none := by
      rw [child_same same]
      exact child_none.2 fun e member => child_none.1 fresh.new e (List.mem_of_mem_take member)
    rw [if_pos ⟨same,missing⟩,if_pos same]
  · rw [if_neg (fun both => same both.1),if_neg same]

theorem attach_childs :
    (t.attach type d childs place r).content d = some (.dir (childs.set place (some t.nodes.length))) := by
  rw [attach_content fresh.inside,if_neg (by have := fresh.inside; omega),if_pos rfl]

/-- What led somewhere leads there still. -/
theorem attach_leads {names : List Name} {e f : Nat} (leads : Leads t e names f) :
    Leads (t.attach type d childs place r) e names f := by
  induction leads with
  | here e => exact .here e
  | @down e g f others name names dir child rest ih =>
    have older := content_inside dir
    by_cases this : e = d
    · subst this
      rw [fresh.dir] at dir
      cases dir
      refine .down (attach_childs fresh) ?_ ih
      rw [fresh.child_new,if_neg ?_]
      · exact child
      · intro same
        rw [child_same same,fresh.new] at child
        cases child
    · have still : (t.attach type d childs place r).content e = some (.dir others) := by
        rw [attach_content fresh.inside,if_neg (by omega),if_neg this]
        exact dir
      refine .down still ?_ ih
      rw [fresh.child_old dir (fun e member => member)]
      exact child

/-- Nothing is found below a new node. -/
theorem walk_new {name : Name} (names : List Name) (short : name.length < 128) :
    (walk (t.attach type d childs place r) (name :: names) t.nodes.length).1 = .ok none := by
  have content : (t.attach type d childs place r).content t.nodes.length = some (new_content type) := by
    rw [attach_content fresh.inside,if_pos rfl]
  have empty : (t.attach type d childs place r).childs t.nodes.length = .ok (List.replicate CHILDS none) := by
    cases type with
    | file => exact childs_new content
    | dir => exact childs_dir content
  rw [walk,if_neg (by omega),empty]
  dsimp only
  rw [child_replicate]

/-- A lookup of other names finds what it found before. -/
theorem attach_walk {names : List Name} {e : Nat} (old : e < t.nodes.length) (short : ∀ name ∈ names, name.length < 128)
    (other : ∀ before name, names = before ++ [name] → Leads t e before d → same_name name r = false) :
    (walk (t.attach type d childs place r) names e).1 = (walk t names e).1 := by
  induction names generalizing e with
  | nil => rfl
  | cons name names ih =>
    obtain ⟨fits,rest⟩ := List.forall_mem_cons.1 short
    unfold walk
    rw [if_neg (by omega),if_neg (by omega)]
    have content := @attach_content t type d place childs r fresh.inside e
    rw [if_neg (by omega)] at content
    by_cases this : e = d
    · subst this
      rw [if_pos rfl] at content
      rw [childs_dir content,childs_dir fresh.dir]
      dsimp only
      rw [fresh.child_new]
      by_cases same : same_name name r
      · have missing : t.child name childs = none := by rw [child_same same]; exact fresh.new
        rw [if_pos same,missing]
        dsimp only
        cases names with
        | nil =>
          rw [other [] name rfl (.here e)] at same
          cases same
        | cons next names =>
          exact walk_new fresh names (rest next List.mem_cons_self)
      · rw [if_neg same]
        cases child : t.child name childs with
        | none => rfl
        | some f =>
          refine ih ((fresh.sound.childs e childs fresh.dir).2 f (child_some child).1) rest ?_
          intro before last split leads
          exact other (name :: before) last (by rw [split]; rfl) (.down fresh.dir child leads)
    · rw [if_neg this] at content
      have same : (t.attach type d childs place r).childs e = t.childs e := by
        unfold Tree.childs
        rw [content]
      rw [same]
      cases looked : t.childs e with
      | error fault => rfl
      | ok others =>
        dsimp only
        cases found : t.content e with
        | none => simp [Tree.childs,found] at looked
        | some c =>
          cases c with
          | file data =>
            simp only [Tree.childs,found] at looked
            split_ifs at looked
            cases looked
            rw [child_replicate,child_replicate]
          | dir others' =>
            rw [childs_dir found] at looked
            cases looked
            rw [fresh.child_old found (fun e member => member)]
            cases child : t.child name others with
            | none => rfl
            | some f =>
              refine ih ((fresh.sound.childs e others found).2 f (child_some child).1) rest ?_
              intro before last split leads
              exact other (name :: before) last (by rw [split]; rfl) (.down found child leads)

theorem attach_named (named : Named t) (nonempty : r ≠ []) (plain : slash ∉ r) :
    Named (t.attach type d childs place r) := by
  have older {f : Nat} {others : List (Option Nat)} (dir : t.content f = some (.dir others)) {e : Nat}
      (member : some e ∈ others) : (t.attach type d childs place r).name e = t.name e := by
    have := (fresh.sound.childs f others dir).2 e member
    rw [fresh.name,if_neg (by omega)]
  have newest : (t.attach type d childs place r).name t.nodes.length = r := by rw [fresh.name,if_pos rfl]
  intro f others dir
  rw [attach_content fresh.inside] at dir
  split_ifs at dir with new here
  · cases type with
    | file => cases dir
    | dir =>
      cases dir
      refine ⟨fun e member => by simp at member,fun i j e f one => ?_⟩
      have := List.mem_of_getElem? one
      simp at this
  · cases dir
    obtain ⟨proper,apart⟩ := named d childs fresh.dir
    constructor
    · intro e member
      obtain old | is := List.mem_or_eq_of_mem_set member
      · rw [older fresh.dir old]
        exact proper e old
      · cases is
        rw [newest]
        exact ⟨nonempty,plain⟩
    · intro i j e g one other same
      rw [List.getElem?_set] at one other
      split_ifs at one other with first inside second inside'
      · omega
      · cases one
        rw [newest,older fresh.dir (List.mem_of_getElem? other)] at same
        rw [child_none.1 fresh.new g (List.mem_of_getElem? other)] at same
        cases same
      · cases other
        rw [newest,older fresh.dir (List.mem_of_getElem? one)] at same
        have back := same_name_symm same
        rw [child_none.1 fresh.new e (List.mem_of_getElem? one)] at back
        cases back
      · rw [older fresh.dir (List.mem_of_getElem? one),older fresh.dir (List.mem_of_getElem? other)] at same
        exact apart i j e g one other same
  · obtain ⟨proper,apart⟩ := named f others dir
    constructor
    · intro e member
      rw [older dir member]
      exact proper e member
    · intro i j e g one other same
      rw [older dir (List.mem_of_getElem? one),older dir (List.mem_of_getElem? other)] at same
      exact apart i j e g one other same

/-- The children of a directory are those it had, and the new node in its place. -/
theorem attach_member {f e i : Nat} {others : List (Option Nat)}
    (dir : (t.attach type d childs place r).content f = some (.dir others)) (at_i : others[i]? = some (some e)) :
    (f = d ∧ e = t.nodes.length) ∨ ∃ before, t.content f = some (.dir before) ∧ before[i]? = some (some e) := by
  rw [attach_content fresh.inside] at dir
  split_ifs at dir with new here
  · cases type with
    | file => cases dir
    | dir =>
      cases dir
      have := List.mem_of_getElem? at_i
      simp at this
  · cases dir
    rw [List.getElem?_set] at at_i
    split_ifs at at_i with is inside
    · cases at_i
      exact .inl ⟨here,rfl⟩
    · exact .inr ⟨childs,here ▸ fresh.dir,at_i⟩
  · exact .inr ⟨others,dir,at_i⟩

theorem attach_treelike (treelike : Treelike t) : Treelike (t.attach type d childs place r) where
  place f f' others others' i j e dir dir' one other := by
    have old {g : Nat} {before : List (Option Nat)} (is : t.content g = some (.dir before)) {k : Nat}
        (there : before[k]? = some (some e)) : e < t.nodes.length :=
      (fresh.sound.childs g before is).2 e (List.mem_of_getElem? there)
    obtain ⟨rfl,new⟩ | ⟨before,is,there⟩ := attach_member fresh dir one
    · obtain ⟨rfl,-⟩ | ⟨before',is',there'⟩ := attach_member fresh dir' other
      · rfl
      · have := old is' there'
        omega
    · obtain ⟨rfl,new⟩ | ⟨before',is',there'⟩ := attach_member fresh dir' other
      · have := old is there
        omega
      · exact treelike.place f f' before before' i j e is is' there there'
  down f others e dir member := by
    obtain ⟨i,at_i⟩ := List.getElem?_of_mem member
    obtain ⟨rfl,rfl⟩ | ⟨before,is,there⟩ := attach_member fresh dir at_i
    · exact fresh.inside
    · exact treelike.down f before e is (List.mem_of_getElem? there)

end

end

theorem leads_last {t : Tree} {name : Name} : Leads t d (names ++ [name]) f ↔
      ∃ e childs, Leads t d names e ∧ t.content e = some (.dir childs) ∧ t.child name childs = some f := by
  rw [leads_append]
  constructor
  · rintro ⟨e,first,last⟩
    cases last with
    | down dir child rest =>
      cases rest
      exact ⟨e,_,first,dir,child⟩
  · rintro ⟨e,childs,first,dir,child⟩
    exact ⟨e,first,.down dir child (.here f)⟩

/-- The names that lead from the root to a node are the same up to case. -/
theorem leads_lower {t : Tree} (treelike : Treelike t) {others : List Name}
    (one : Leads t 0 names f) (other : Leads t 0 others f) : lower names = lower others := by
  induction names using List.reverseRecOn generalizing others f with
  | nil =>
    cases one
    cases others using List.reverseRecOn with
    | nil => rfl
    | append_singleton others last =>
      obtain ⟨e,childs,-,dir,child⟩ := leads_last.1 other
      have := treelike.down e childs 0 dir (child_some child).1
      omega
  | append_singleton names name ih =>
    obtain ⟨e,childs,first,dir,child⟩ := leads_last.1 one
    obtain ⟨member,same⟩ := child_some child
    cases others using List.reverseRecOn with
    | nil =>
      cases other
      have := treelike.down e childs 0 dir member
      omega
    | append_singleton others last =>
      obtain ⟨e',childs',first',dir',child'⟩ := leads_last.1 other
      obtain ⟨member',same'⟩ := child_some child'
      obtain ⟨i,at_i⟩ := List.getElem?_of_mem member
      obtain ⟨j,at_j⟩ := List.getElem?_of_mem member'
      have parent := treelike.place e e' childs childs' i j f dir dir' at_i at_j
      subst parent
      have above := ih first first'
      rw [same_name_iff] at same same'
      simp only [lower,List.map_append,List.map_cons,List.map_nil] at *
      rw [above,same,same']

theorem leads_clear {t : Tree} (leads : Leads t d names f)
    (short : ∀ name ∈ names, name.length < 128) : Clear t names d := by
  induction leads with
  | here d => exact clear_nil t d
  | @down d e f childs name names dir child rest ih =>
    obtain ⟨fits,later⟩ := List.forall_mem_cons.1 short
    refine (clear_cons t name names d).2 ⟨fits,type_of dir,fun childs' e' dir' child' => ?_⟩
    rw [dir] at dir'
    cases dir'
    rw [child] at child'
    cases child'
    exact ih later

/-- The last piece of a path is a name, a name and a slash, or a slash. -/
theorem cut_cases (cut : Cut path q r) : (components r = [] ∧ path.getLast? = some slash) ∨
      ∃ name, name ≠ [] ∧ slash ∉ name ∧ components r = [name] ∧ (r = name ∨ path.getLast? = some slash) := by
  obtain ⟨rfl,nonempty,last⟩ := cut
  have plain := copy_plain slash r
  obtain ⟨whole,-⟩ | parts := copy_parts r
  · rw [← whole] at plain
    exact .inr ⟨r,nonempty,plain,components_name nonempty plain,.inl rfl⟩
  · rw [last] at parts
    have ends : (q ++ slash :: r).getLast? = some slash := by
      have split : q ++ slash :: r = (q ++ slash :: (copy_until slash r).1) ++ [slash] := by
        conv_lhs => rw [parts]
        simp
      rw [split,List.getLast?_concat]
    by_cases empty : (copy_until slash r).1 = []
    · refine .inl ⟨?_,ends⟩
      rw [parts,empty]
      rfl
    · refine .inr ⟨_,empty,plain,?_,.inr ends⟩
      conv_lhs => rw [parts]
      rw [components_append,components_name empty plain]
      rfl

theorem tidy_creatable {room : Bool} {t : Tree} (tidy : Tidy room t path) : Creatable room t path := by
  obtain ⟨clear,needs⟩ := tidy
  refine ⟨clear,fun nowhere => ?_⟩
  obtain ⟨short,slashed,fits,place⟩ := needs nowhere
  refine ⟨short,slashed,fun q r cut => ⟨fits q r cut,fun d childs leads dir free => ?_⟩⟩
  obtain ⟨none,-⟩ | ⟨name,-,-,one,whole⟩ := cut_cases cut
  · refine absurd ?_ (nowhere d)
    rw [cut_components cut,none,List.append_nil]
    exact leads
  · obtain ⟨open_end,small,page⟩ := place _ name d childs (by rw [cut_components cut,one]) leads dir free
    obtain rfl | ends := whole
    · exact ⟨page,by omega⟩
    · exact absurd ends open_end

/-- A call after which the tree is as it was. -/
theorem created_same {t : Tree} {type : NodeType}
    (found : ∀ names name d childs, components path = names ++ [name] → Leads t 0 names d →
      t.content d = some (.dir childs) → none ∈ childs → ∃ id, (ramfs_find t path 0).1 = .ok (some id)) :
    Created t t type path where
  found names name d childs split leads dir free := by
    obtain ⟨id,answer⟩ := found names name d childs split leads dir free
    exact ⟨id,answer,.inl answer⟩
  others _ _ _ := rfl
  nowhere _ := rfl

/-- A new node under its name. -/
theorem created_new {t : Tree} {type : NodeType} {place : Nat}
    (fresh : Fresh t d place childs r) (treelike : Treelike t) (split : components path = components q ++ [r])
    (leads : Leads t 0 (components q) d) (short : ∀ name ∈ components path, name.length < 128) :
    Created t (t.attach type d childs place r) type path where
  found _ _ _ _ _ _ _ _ := by
    have there : Leads (t.attach type d childs place r) 0 (components path) t.nodes.length := by
      rw [split,leads_last]
      refine ⟨d,_,attach_leads fresh leads,attach_childs fresh,?_⟩
      rw [fresh.child_new,if_pos (same_name_refl r)]
    refine ⟨t.nodes.length,?_,.inr ?_⟩
    · rw [ramfs_find_eq,walk_leads (leads_clear there short)]
      exact there
    · have content : (t.attach type d childs place r).content t.nodes.length = some (new_content type) := by
        rw [attach_content fresh.inside,if_pos rfl]
      rw [type_of content]
      cases type <;> rfl
  others other fits apart := by
    rw [ramfs_find_eq,ramfs_find_eq]
    refine attach_walk fresh (by have := fresh.inside; omega) fits fun before name ends above => ?_
    by_contra same
    rw [Bool.not_eq_false,same_name_iff] at same
    refine apart ?_
    have up := leads_lower treelike above leads
    rw [ends,split]
    simp only [lower,List.map_append,List.map_cons,List.map_nil] at *
    rw [up,same]
  nowhere none := absurd (type_of fresh.dir) (none _ _ d split leads)

/-- What a tidy call does: the tree it gives, and what stays true of the names. -/
theorem create_spec {room : Bool} {type : NodeType} {t : Tree} {path : Name} (sound : Sound t) (named : Named t)
    (treelike : Treelike t) (tidy : Tidy room t path) :
    ∃ u, (create room type t path).1 = .ok u ∧ Created t u type path ∧ Named u ∧ Treelike u := by
  obtain ⟨clear,needs⟩ := tidy
  obtain ⟨id,found,leads⟩ | ⟨missing,nowhere⟩ := find_cases clear
  · refine ⟨t,by rw [create,found],created_same fun _ _ _ _ _ _ _ _ => ⟨id,by rw [found]⟩,named,treelike⟩
  obtain ⟨short,slashed,fits,needed⟩ := needs nowhere
  obtain ⟨q,r,split,cut⟩ := split_spec short slashed fits
  have clear' : Clear t (components q) 0 := clear_append (cut_components cut ▸ clear)
  have parts := cut_components cut
  obtain ⟨d,found,leads⟩ | ⟨missing',nowhere'⟩ := find_cases clear'
  · -- The directory is there, so the last piece is a name.
    have made : (create room type t path).1 = (add_child room type t d r).1 := by
      rw [create,missing]
      dsimp only
      rw [split]
      dsimp only
      rw [found]
    obtain ⟨none,-⟩ | ⟨name,nonempty,plain,one,whole⟩ := cut_cases cut
    · rw [none,List.append_nil] at parts
      exact absurd (parts ▸ leads) (nowhere d)
    rw [one] at parts
    obtain ⟨-,is_dir⟩ := clear _ name [] d parts leads
    obtain ⟨childs,dir⟩ := type_dir is_dir
    have new : t.child name childs = none := by
      rw [Option.eq_none_iff_forall_ne_some]
      intro f child
      exact nowhere f (parts ▸ leads_last.2 ⟨d,childs,leads,dir,child⟩)
    cases place : childs.findIdx? (·.isNone) with
    | none =>
      have full : none ∉ childs := by
        intro member
        have := List.findIdx?_eq_none_iff.1 place none member
        cases this
      refine ⟨t,by rw [made,add_child,dir]; dsimp only; rw [place],created_same ?_,named,treelike⟩
      intro names last d' childs' split' leads' dir' free
      rw [parts] at split'
      obtain ⟨same,-⟩ := List.append_inj' split' rfl
      have node := leads_unique leads (same ▸ leads')
      rw [← node,dir] at dir'
      cases dir'
      exact absurd free full
    | some place' =>
      obtain ⟨inside,empty,-⟩ := List.findIdx?_eq_some_iff_getElem.1 place
      rw [Option.isNone_iff_eq_none] at empty
      have free : childs[place']? = some none := by rw [List.getElem?_eq_getElem inside,empty]
      obtain ⟨open_end,small,rfl⟩ := needed _ name d childs parts leads dir (List.mem_of_getElem? free)
      obtain rfl : r = name := whole.resolve_right open_end
      have fresh : Fresh t d place' childs r := ⟨sound,dir,free,new,small⟩
      refine ⟨t.attach type d childs place' r,?_,created_new fresh treelike parts leads short,
        attach_named fresh named nonempty plain,attach_treelike fresh treelike⟩
      rw [made,add_child,dir]
      dsimp only
      rw [place]
      dsimp only
      rw [if_neg (by simp),if_neg (by omega)]
  · -- Without the directory nothing is made; only a slash at the end could have misled the split.
    refine ⟨t,?_,created_same ?_,named,treelike⟩
    · rw [create,missing]
      dsimp only
      rw [split]
      dsimp only
      rw [missing']
    · intro names name d childs split' leads dir free
      obtain ⟨open_end,-⟩ := needed names name d childs split' leads dir free
      obtain ⟨-,ends⟩ | ⟨last,-,-,one,-⟩ := cut_cases cut
      · exact absurd ends open_end
      · rw [parts,one] at split'
        obtain ⟨same,-⟩ := List.append_inj' split' rfl
        exact absurd (same ▸ leads) (nowhere' d)

def TidyAllowed (s : State) : Action → Prop
  | .mkdir path room => Tidy room s.tree path
  | .touch path room => Tidy room s.tree path
  | a => Allowed s a

def TidyGuard (s : Except Fault State) (a : Action) : Prop := ∀ u, s = .ok u → TidyAllowed u a

theorem tidy_allowed {s : State} {a : Action} (tidy : TidyAllowed s a) : Allowed s a := by
  cases a with
  | mkdir path room => exact tidy_creatable tidy
  | touch path room => exact tidy_creatable tidy
  | «open» handle path => exact tidy
  | close handle => exact tidy
  | read handle size offset => exact tidy
  | write handle buf size offset fresh => exact tidy
  | truncate handle new_size fresh => exact tidy
  | dir_at idx path => exact tidy

theorem setData_name {t : Tree} (inside : id < t.nodes.length) (id' : Nat) :
    (t.setData id data).name id' = t.name id' := by
  unfold Tree.name Tree.setData
  dsimp only
  by_cases here : id' = id
  · subst here
    rw [List.getElem?_set_self inside]
    rfl
  · rw [List.getElem?_set_ne (Ne.symm here)]

theorem setData_dir {t : Tree}
    (inside : id < t.nodes.length) (dir : (t.setData id data).content d = some (.dir childs)) :
    t.content d = some (.dir childs) := by
  rw [setData_content inside] at dir
  split_ifs at dir
  · cases dir
  · exact dir

theorem setData_names {t : Tree} (inside : id < t.nodes.length) (named : Named t)
    (treelike : Treelike t) : Named (t.setData id data) ∧ Treelike (t.setData id data) := by
  refine ⟨fun d childs dir => ?_,?_,?_⟩
  · simp only [setData_name inside]
    exact named d childs (setData_dir inside dir)
  · intro d d' childs childs' i j e dir dir'
    exact treelike.place d d' childs childs' i j e (setData_dir inside dir) (setData_dir inside dir')
  · intro d childs e dir
    exact treelike.down d childs e (setData_dir inside dir)

theorem on_data_names {s t : State} {handle : Nat} {call : RamfsFile.Node → RamfsFile.Node × Word × List RamfsFile.Access}
    (named : Named s.tree) (treelike : Treelike s.tree) (done : on_data s handle call = .ok t) :
    Named t.tree ∧ Treelike t.tree := by
  unfold on_data at done
  split at done
  · cases done
    exact ⟨named,treelike⟩
  · split at done
    · rename_i file
      split_ifs at done
      cases done
      exact setData_names (content_inside file) named treelike
    · cases done

theorem act_names {s t : State} {a : Action} (typed : Typed s) (named : Named s.tree) (treelike : Treelike s.tree)
    (tidy : TidyAllowed s a) (step : act s a = .ok t) : Named t.tree ∧ Treelike t.tree := by
  cases a with
  | mkdir path room =>
    obtain ⟨u,made,-,kept⟩ := @create_spec room .dir s.tree path typed.sound named treelike tidy
    rw [act,ramfs_mkdir,made] at step
    cases step
    exact kept
  | touch path room =>
    obtain ⟨u,made,-,kept⟩ := @create_spec room .file s.tree path typed.sound named treelike tidy
    rw [act,ramfs_touch,made] at step
    cases step
    exact kept
  | «open» handle path =>
    rw [act] at step
    cases opened : (ramfs_open s.tree path).1 with
    | error fault => rw [opened] at step; cases step
    | ok file =>
      rw [opened] at step
      cases step
      exact ⟨named,treelike⟩
  | close handle =>
    cases step
    exact ⟨named,treelike⟩
  | read handle size offset =>
    rw [act] at step
    split at step <;> cases step <;> exact ⟨named,treelike⟩
  | write handle buf size offset fresh => exact on_data_names named treelike step
  | truncate handle new_size fresh => exact on_data_names named treelike step
  | dir_at idx path =>
    rw [act] at step
    cases listed : (ramfs_dir_at s.tree idx path).1 with
    | error fault => rw [listed] at step; cases step
    | ok dir =>
      rw [listed] at step
      cases step
      exact ⟨named,treelike⟩

theorem names_start : Named State.start.tree ∧ Treelike State.start.tree := by
  have none {d : Nat} {childs : List (Option Nat)} (dir : get_ramfs.content d = some (.dir childs)) (e : Nat) :
      some e ∉ childs := by
    have root : d = 0 := Nat.lt_one_iff.1 (content_inside dir)
    subst root
    cases dir
    intro member
    simp at member
  refine ⟨fun d childs dir => ⟨fun e member => absurd member (none dir e),fun i j e f one => ?_⟩,?_,?_⟩
  · exact absurd (List.mem_of_getElem? one) (none dir e)
  · intro d d' childs childs' i j e dir dir' one
    exact absurd (List.mem_of_getElem? one) (none dir e)
  · intro d childs e dir member
    exact absurd member (none dir e)

/-- In runs whose calls are all tidy the names in a directory stay apart, and every tidy
    call creates what its path says and nothing else. -/
theorem tidy_names {s : Except Fault State} (reached : Reached (guarded machine TidyGuard) s) :
    ∃ u, s = .ok u ∧ Named u.tree ∧ ∀ room type path, Tidy room u.tree path →
      ∃ v, (create room type u.tree path).1 = .ok v ∧ Created u.tree v type path := by
  have kept : ∃ u, s = .ok u ∧ Typed u ∧ Named u.tree ∧ Treelike u.tree := by
    have initial : ∀ s, machine.start s → ∃ u, s = .ok u ∧ Typed u ∧ Named u.tree ∧ Treelike u.tree := by
      rintro s rfl
      exact ⟨.start,rfl,typed_start,names_start⟩
    have preserved : ∀ s a t, (∃ u, s = .ok u ∧ Typed u ∧ Named u.tree ∧ Treelike u.tree) → machine.step s a t →
        TidyGuard s a → ∃ u, t = .ok u ∧ Typed u ∧ Named u.tree ∧ Treelike u.tree := by
      rintro s a t ⟨u,rfl,typed,named,treelike⟩ ⟨u',same,rfl⟩ tidy
      cases same
      obtain ⟨v,step,typed'⟩ := act_typed typed (tidy_allowed (tidy u rfl))
      exact ⟨v,step,typed',act_names typed named treelike (tidy u rfl) step⟩
    exact guarded_invariant initial preserved reached
  obtain ⟨u,rfl,typed,named,treelike⟩ := kept
  refine ⟨u,rfl,named,fun room type path tidy => ?_⟩
  obtain ⟨v,made,created,-⟩ := @create_spec room type u.tree path typed.sound named treelike tidy
  exact ⟨v,made,created⟩

theorem tidy_in_root {t : Tree} (root : t.type 0 = some .dir) {c : UInt8} (other : c ≠ slash) : Tidy true t [slash,c] := by
  obtain ⟨clear,needs⟩ := creatable_in_root root other
  refine ⟨clear,fun nowhere => ?_⟩
  obtain ⟨short,slashed,parts⟩ := needs nowhere
  refine ⟨short,slashed,fun q r cut => (parts q r cut).1,fun names name d childs split leads dir free => ?_⟩
  have single : components [c] = [[c]] := components_name (by simp) (by simpa using other.symm)
  have one : components [slash,c] = [] ++ [[c]] := (components_append [] [c]).trans single
  rw [one] at split
  obtain ⟨-,same⟩ := List.append_inj' split rfl
  cases same
  exact ⟨by simpa using other,by simp,rfl⟩

theorem tidy_names_two : ∃ u, Reached (guarded machine TidyGuard) (.ok u) ∧ Named u.tree ∧ u.tree.type 1 = some .dir ∧
    u.tree.type 2 = some .file ∧ u.tree.name 1 = [97] ∧ u.tree.name 2 = [98] := by
  have run : Run (guarded machine TidyGuard) [.mkdir path_a true,.touch path_b true] (.ok .start) (.ok after_touch) := by
    refine .step ⟨⟨_,rfl,(act_mkdir mkdir_a).symm⟩,?_⟩ (.step ⟨⟨_,rfl,(act_touch touch_b).symm⟩,?_⟩ (.done _))
    · rintro u ⟨⟩
      exact tidy_in_root rfl (by decide)
    · rintro u ⟨⟩
      exact tidy_in_root rfl (by decide)
  have reached : Reached (guarded machine TidyGuard) (.ok after_touch) := ⟨_,_,rfl,run⟩
  obtain ⟨u,is,named,-⟩ := tidy_names reached
  cases is
  exact ⟨_,reached,named,rfl,rfl,rfl,rfl⟩

/-- `/a/`. -/
def path_slash : Name := [47,97,47]

theorem split_slash : ramfs_split_path path_slash = .ok ([],[97,47]) := by
  have later : last_part [97,47] = .ok none := by
    rw [last_part,if_neg (by decide),dif_pos (by decide)]
  have part : last_part path_slash = .ok (some [97,47]) := by
    rw [last_part,if_neg (by decide),dif_neg (by decide)]
    change Except.map _ (last_part [97,47]) = _
    rw [later]
    rfl
  rw [ramfs_split_path,part]
  rfl

/-- `ramfs_touch` of `/a/` makes a file whose name has a slash in it. -/
theorem slash_in_name : ¬ ∀ s, Reached machine (.ok s) → Named s.tree := by
  intro all
  have made : ramfs_touch true get_ramfs path_slash = (.ok _,_) :=
    create_in_root rfl rfl rfl (by decide) (child_replicate _ _ _) split_slash (by decide)
  have run : Run machine [.touch path_slash true] (.ok .start) (act .start (.touch path_slash true)) :=
    .step ⟨_,rfl,rfl⟩ (.done _)
  rw [@act_touch .start path_slash true _ _ made] at run
  have dir : (get_ramfs.attach .file 0 (List.replicate CHILDS none) 0 [97,47]).content 0 =
      some (.dir ((List.replicate CHILDS none).set 0 (some 1))) := rfl
  obtain ⟨names,-⟩ := all _ ⟨_,_,rfl,run⟩ 0 _ dir
  obtain ⟨-,plain⟩ := names 1 (List.mem_of_getElem? (i := 0) rfl)
  exact plain (by decide)

end MicroOS.Ramfs

import Mathlib.Data.List.Forall2
import MicroOS.JsonTexts

/-!
The answers that are expected for a container are those about its items: each has the type
of the item, and what it points at is in the text what it should be.
-/

namespace MicroOS.Json
open List (append_assoc cons_append length_append nil_append)

/-- What a value points at. -/
def slice (text : List UInt8) (value : Value) : List UInt8 := (text.drop value.start).take (value.end_ - value.start)

def Tree.type : Tree → ValueType
  | .literal .null => .null
  | .literal _ => .bool
  | .number _ => .number
  | .string _ => .string
  | .empty kind _ | .container kind _ => kind.type

/-- The text of a scalar, what is between the quotes of a string, the bracket of a container. -/
def Tree.slice : Tree → List UInt8
  | .string chars => chars_text chars
  | .empty kind _ | .container kind _ => [kind.opening]
  | v => v.text

structure Shows (text : List UInt8) (value : Value) (v : Tree) : Prop where
  type : value.type = v.type
  slice : slice text value = v.slice

/-- An answer about an item: an element, or the key and the value of a member. -/
def About (text : List UInt8) {kind : Kind} (lead : Lead kind) (v : Tree) (o : Outcome) : Prop :=
  match kind,lead,o with
  | .array,_,.element value => Shows text value v
  | .object,(k : Key),.pair key value => key.type = .string ∧ slice text key = chars_text k.chars ∧ Shows text value v
  | _,_,_ => False

/-- The answer at the end points at the closing bracket, and the depth is that of the parent. -/
def Ends (text : List UInt8) (kind : Kind) (container : Value) (e : Entry) : Prop :=
  e.depth = container.depth - 1 ∧ ∃ value, e.outcome = .finished value ∧ value.type = .end_ ∧ slice text value = [kind.closing] ∧
    e.current = value.end_

/-- One answer for every item, in their order, and one for the end. -/
def Told (text : List UInt8) {kind : Kind} (container : Value) : Items kind → List Entry → Prop
  | .one lead v _,[e,last] => About text lead v e.outcome ∧ Ends text kind container last
  | .more lead v _ rest,e :: es => About text lead v e.outcome ∧ Told text container rest es
  | _,_ => False

/-- The same for a container, which is shown itself. -/
def Tells (text : List UInt8) (c : Value × List Entry) (v : Tree) : Prop :=
  Shows text c.1 v ∧
    match v with
    | .empty kind _ => ∃ e, c.2 = [e] ∧ Ends text kind c.1 e
    | .container _ items => Told text c.1 items c.2
    | _ => False

mutual

/-- The containers in a value, in the order of their brackets. -/
def Tree.nested : Tree → List Tree
  | .literal _ | .number _ | .string _ => []
  | .empty kind blank => [.empty kind blank]
  | .container kind items => .container kind items :: items.nested

def Items.nested {kind : Kind} : Items kind → List Tree
  | .one _ v _ => v.nested
  | .more _ v _ rest => v.nested ++ rest.nested

end

section
variable {text before rest : List UInt8}

theorem slice_part {part : List UInt8} {value : Value} (parts : text = before ++ (part ++ rest)) (start : value.start = before.length)
    (stop : value.end_ = value.start + part.length) : slice text value = part := by
  rw [slice,parts,start,List.drop_left,stop,start,Nat.add_sub_cancel_left,List.take_left]

theorem value_shows {start : Nat} (v : Tree) (depth : Int) (parts : text = before ++ (v.text ++ rest)) (here : before.length = start) :
    Shows text (v.value start depth) v := by
  subst here
  cases v with
  | literal l => cases l <;> exact ⟨rfl,slice_part parts rfl rfl⟩
  | number n => exact ⟨rfl,slice_part parts rfl rfl⟩
  | string chars =>
    have quoted : text = (before ++ [0x22]) ++ (chars_text chars ++ 0x22 :: rest) := by
      rw [parts]
      simp [Tree.text]
    refine ⟨rfl,slice_part quoted ?_ rfl⟩
    rw [length_append]
    rfl
  | empty kind blank =>
    have bracket : text = before ++ ([kind.opening] ++ (blank.1 ++ kind.closing :: rest)) := by
      rw [parts]
      simp [Tree.text]
    exact ⟨rfl,slice_part bracket rfl rfl⟩
  | container kind items =>
    have bracket : text = before ++ ([kind.opening] ++ (items.text ++ kind.closing :: rest)) := by
      rw [parts]
      simp [Tree.text]
    exact ⟨rfl,slice_part bracket rfl rfl⟩

theorem finish_ends {start : Nat} (kind : Kind) (container : Value) (parts : text = before ++ kind.closing :: rest)
    (here : before.length = start) : Ends text kind container (finish container start) := by
  subst here
  have bracket : text = before ++ ([kind.closing] ++ rest) := parts
  exact ⟨rfl,_,rfl,rfl,slice_part bracket rfl rfl,rfl⟩

theorem answer_about {start : Nat} {kind : Kind} (container : Value) (lead : Lead kind) (v : Tree)
    (parts : text = before ++ (lead.text ++ (v.text ++ rest))) (here : before.length = start) :
    About text lead v (answer container start lead v).outcome := by
  subst here
  have shows : Shows text (v.value (before.length + lead.text.length) container.depth) v := by
    rw [← append_assoc] at parts
    exact value_shows v _ parts (length_append)
  cases kind with
  | array => exact shows
  | object =>
    have quoted : text = (before ++ (Key.before lead).1 ++ [0x22]) ++
        (chars_text (Key.chars lead) ++ 0x22 :: (Key.rest lead ++ (v.text ++ rest))) := by
      rw [parts]
      simp [Lead.text,Key.text]
    refine ⟨rfl,slice_part quoted ?_ rfl,shows⟩
    simp only [length_append,List.length_singleton]

theorem items_told {start : Nat} {kind : Kind} (items : Items kind) (container : Value) {before : List UInt8}
    (parts : text = before ++ (items.text ++ kind.closing :: rest)) (here : before.length = start) :
    Told text container items (items.entries container start) := by
  match items with
  | .one lead v after =>
    have about := parts
    rw [Items.text,append_assoc,append_assoc] at about
    refine ⟨answer_about container lead v about here,?_⟩
    have behind : text = (before ++ (lead.text ++ (v.text ++ after.1))) ++ kind.closing :: rest := by
      rw [parts,Items.text]
      simp only [append_assoc]
    apply finish_ends kind container behind
    simp only [length_append]
    omega
  | .more lead v after others =>
    have about := parts
    rw [Items.text,append_assoc,append_assoc] at about
    refine ⟨answer_about container lead v about here,?_⟩
    have behind : text = (before ++ (lead.text ++ (v.text ++ (after.1 ++ [0x2C])))) ++ (others.text ++ kind.closing :: rest) := by
      rw [parts,Items.text]
      simp only [append_assoc,cons_append,nil_append]
    apply items_told others container behind
    simp only [length_append,List.length_singleton]
    omega

mutual

/-- What is expected for the containers of a value is about them. -/
theorem tree_tells {start : Nat} (v : Tree) (depth : Int) {before rest : List UInt8} (parts : text = before ++ (v.text ++ rest))
    (here : before.length = start) : List.Forall₂ (Tells text) (v.containers start depth) v.nested := by
  have shows := value_shows v depth parts here
  match v with
  | .literal _ => exact .nil
  | .number _ => exact .nil
  | .string _ => exact .nil
  | .empty kind blank =>
    refine .cons ⟨shows,_,rfl,?_⟩ .nil
    have behind : text = (before ++ (kind.opening :: blank.1)) ++ kind.closing :: rest := by
      rw [parts,Tree.text]
      simp only [append_assoc,cons_append,nil_append]
    apply finish_ends kind _ behind
    simp only [length_append,List.length_cons]
    omega
  | .container kind items =>
    have inside : text = (before ++ [kind.opening]) ++ (items.text ++ kind.closing :: rest) := by
      rw [parts,Tree.text]
      simp only [append_assoc,cons_append,nil_append]
    have begun : (before ++ [kind.opening]).length = start + 1 := by
      rw [length_append,here]
      rfl
    exact .cons ⟨shows,items_told items _ inside begun⟩ (items_tells items _ inside begun)

theorem items_tells {start : Nat} {kind : Kind} (items : Items kind) (depth : Int) {before rest : List UInt8}
    (parts : text = before ++ (items.text ++ rest)) (here : before.length = start) :
    List.Forall₂ (Tells text) (items.containers start depth) items.nested := by
  match items with
  | .one lead v after =>
    have item : text = (before ++ lead.text) ++ (v.text ++ (after.1 ++ rest)) := by
      rw [parts,Items.text]
      simp only [append_assoc]
    exact tree_tells v depth item (by rw [length_append,here])
  | .more lead v after others =>
    have item : text = (before ++ lead.text) ++ (v.text ++ (after.1 ++ 0x2C :: (others.text ++ rest))) := by
      rw [parts,Items.text]
      simp only [append_assoc,cons_append]
    have behind : text = (before ++ (lead.text ++ (v.text ++ (after.1 ++ [0x2C])))) ++ (others.text ++ rest) := by
      rw [parts,Items.text]
      simp only [append_assoc,cons_append,nil_append]
    refine List.rel_append (tree_tells v depth item (by rw [length_append,here])) (items_tells others depth behind ?_)
    simp only [length_append,List.length_singleton]
    omega

end

end

/-- Every container of a text has its answers, told about its own items. -/
theorem document_tells (doc : Document) : List.Forall₂ (Tells doc.text) doc.containers doc.root.nested :=
  tree_tells doc.root 0 rfl rfl

end MicroOS.Json

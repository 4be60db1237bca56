import MicroOS.JsonSlices
import MicroOS.JsonTokens
import MicroOS.Runs

/-!
A consumer holds the containers it is inside of and asks any of them for its next element;
what is inside that container is then given up. The main theorem is `walk_faithful`:
whatever is asked for, every container gives its elements in order and then its end.
-/

namespace MicroOS.Json
open Runs
open List (append_assoc append_nil cons_append forall_mem_nil length_append length_cons length_singleton mem_cons
  mem_cons_self nil_append)

def is_container (v : Value) : Bool := v.type = .array ∨ v.type = .object

/-- One call of the function for the container, its answer and the reader behind it. -/
def iterate (r : Reader) (container : Value) : Option (Outcome × Reader) :=
  match container.type with
  | .array => (json_iter_array r container).map fun (more,value,r) => (if more then .element value else .finished value,r)
  | .object =>
    (json_iter_object r container).map fun (more,key,value,r) =>
      match more,value with
      | true,some value => (.pair key value,r)
      | _,some value => (.finished value,r)
      | _,none => (.finished key,r)
  | _ => none

/-- The open containers, the innermost first, and what was answered so far. -/
structure State where
  reader : Reader
  root : Value
  handles : List Value
  log : List Entry

/-- The containers that are open after an answer. -/
def opened (container : Value) (outer : List Value) : Outcome → List Value
  | .element value | .pair _ value => if is_container value then value :: container :: outer else container :: outer
  | .finished _ => outer

/-- Asking the container at a position of the list for its next element. -/
def next (s : State) (i : Nat) : Option State :=
  match s.handles.drop i with
  | [] => none
  | container :: outer =>
    match iterate s.reader container with
    | none => none
    | some (outcome,r) =>
      some { s with
        reader := r
        handles := opened container outer outcome
        log := s.log ++ [⟨container,outcome,r.current,r.depth⟩] }

/-- The first value is read before the walk. -/
def walk (doc : Document) : System State Nat where
  start s := ∃ root r, json_read (json_new_reader doc.text doc.text.length) = some (root,r) ∧
    s = ⟨r,root,if is_container root then [root] else [],[]⟩
  step s i t := next s i = some t

/-- What was answered for a container. -/
def answers (log : List Entry) (container : Value) : List Entry := log.filter (·.container = container)

/-- What is left of a container: separators, and the items behind them. -/
structure Open where
  kind : Kind
  value : Value
  gap : List UInt8
  items : Option (Items kind)

def Open.text (o : Open) : List UInt8 :=
  match o.items with
  | none => o.gap ++ [o.kind.closing]
  | some items => o.gap ++ (items.text ++ [o.kind.closing])

/-- The answers it still owes. -/
def Open.entries (start : Nat) (o : Open) : List Entry :=
  match o.items with
  | none => [finish o.value (start + o.gap.length)]
  | some items => items.entries o.value (start + o.gap.length)

/-- The containers that come in it. -/
def Open.containers (start : Nat) (o : Open) : List (Value × List Entry) :=
  match o.items with
  | none => []
  | some items => items.containers (start + o.gap.length) o.value.depth

def texts (opens : List Open) : List UInt8 := opens.flatMap Open.text

theorem texts_cons (o : Open) (opens : List Open) : texts (o :: opens) = o.text ++ texts opens := rfl

theorem texts_append (inner opens : List Open) : texts (inner ++ opens) = texts inner ++ texts opens := List.flatMap_append

def Items.lead {kind : Kind} : Items kind → Lead kind
  | .one lead _ _ | .more lead _ _ _ => lead

def Items.first {kind : Kind} : Items kind → Tree
  | .one _ v _ | .more _ v _ _ => v

/-- What is left behind the first item. -/
def Items.behind {kind : Kind} (value : Value) : Items kind → Open
  | .one _ _ after => ⟨kind,value,after.1,none⟩
  | .more _ _ after rest => ⟨kind,value,after.1 ++ [0x2C],some rest⟩

/-- What is left of a value behind its token. -/
def Tree.inner (start : Nat) (depth : Int) : Tree → List Open
  | .empty kind blank => [⟨kind,⟨kind.type,start,start + 1,depth + 1⟩,blank.1,none⟩]
  | .container kind items => [⟨kind,⟨kind.type,start,start + 1,depth + 1⟩,[],some items⟩]
  | _ => []

section
variable {kind : Kind} (items : Items kind) (value : Value) (start : Nat)

theorem items_text : items.text ++ [kind.closing] = items.lead.text ++ (items.first.text ++ (items.behind value).text) := by
  cases items <;>
    simp only [Items.text,Items.lead,Items.first,Items.behind,Open.text,append_assoc,cons_append,nil_append]

theorem open_items_text (gap : List UInt8) : Open.text ⟨kind,value,gap,some items⟩ =
    gap ++ (items.lead.text ++ (items.first.text ++ (items.behind value).text)) := by
  rw [← items_text]
  rfl

theorem items_entries : items.entries value start =
    answer value start items.lead items.first ::
      (items.behind value).entries (start + items.lead.text.length + items.first.text.length) := by
  cases items <;>
    simp only [Items.entries,Items.lead,Items.first,Items.behind,Open.entries,length_append,length_singleton,Nat.add_assoc]

theorem items_containers : items.containers start value.depth =
    items.first.containers (start + items.lead.text.length) value.depth ++
      (items.behind value).containers (start + items.lead.text.length + items.first.text.length) := by
  cases items <;>
    simp only [Items.containers,Items.lead,Items.first,Items.behind,Open.containers,length_append,length_singleton,
      Nat.add_assoc,append_nil]

theorem tree_text (v : Tree) (depth : Int) : v.text = v.token ++ texts (v.inner start depth) := by
  cases v <;> simp [Tree.text,Tree.token,Tree.inner,texts,Open.text]

theorem behind_gap : Separators (items.behind value).gap := by
  cases items with
  | one lead v after => exact blank_separators after
  | more lead v after rest =>
    exact separators_append (blank_separators after) (separators_cons (by decide) (forall_mem_nil _))

theorem behind_stops (rest : List UInt8) : Stops ((items.behind value).text ++ rest) := by
  cases items with
  | one lead v after =>
    rw [Items.behind,Open.text,append_assoc]
    exact stops_gap (blank_separators after) (closing_stops kind rest)
  | more lead v after others =>
    rw [Items.behind,Open.text,append_assoc,append_assoc]
    exact stops_gap (blank_separators after) (stops_cons (by decide) _)

theorem behind_value : (items.behind value).value = value ∧ (items.behind value).kind = kind := by
  cases items <;> exact ⟨rfl,rfl⟩

theorem inner_stops (v : Tree) (depth : Int) {rest : List UInt8} (stops : Stops rest) (scalar : v.opens = 0) :
    Stops (texts (v.inner start depth) ++ rest) := by
  cases v with
  | literal l => exact stops
  | number n => exact stops
  | string chars => exact stops
  | empty kind blank => cases scalar
  | container kind items => cases scalar

end

mutual

theorem tree_bounds (v : Tree) (start : Nat) (depth : Int) :
    ∀ c ∈ v.containers start depth, start ≤ c.1.start ∧ c.1.start < start + v.text.length := by
  match v with
  | .literal l => exact forall_mem_nil _
  | .number n => exact forall_mem_nil _
  | .string chars => exact forall_mem_nil _
  | .empty kind blank =>
    intro c among
    obtain rfl := List.mem_singleton.1 among
    simp only [Tree.text,length_cons]
    omega
  | .container kind items =>
    intro c among
    simp only [Tree.text,length_cons,length_append,List.length_nil]
    rcases mem_cons.1 among with rfl | inside
    · dsimp only
      omega
    · have bounds := items_bounds items (start + 1) (depth + 1) c inside
      omega

theorem items_bounds {kind : Kind} (items : Items kind) (start : Nat) (depth : Int) :
    ∀ c ∈ items.containers start depth, start ≤ c.1.start ∧ c.1.start < start + items.text.length := by
  match items with
  | .one lead v after =>
    intro c among
    have bounds := tree_bounds v (start + lead.text.length) depth c among
    simp only [Items.text,length_append]
    omega
  | .more lead v after rest =>
    intro c among
    simp only [Items.text,length_append,length_cons]
    rcases List.mem_append.1 among with here | there
    · have bounds := tree_bounds v (start + lead.text.length) depth c here
      omega
    · have bounds := items_bounds rest _ depth c there
      omega

end

/-- Containers are listed in the order of their brackets. -/
def Ordered (containers : List (Value × List Entry)) : Prop := containers.Pairwise (fun c d => c.1.start < d.1.start)

mutual

theorem tree_ordered (v : Tree) (start : Nat) (depth : Int) : Ordered (v.containers start depth) := by
  match v with
  | .literal l => exact List.Pairwise.nil
  | .number n => exact List.Pairwise.nil
  | .string chars => exact List.Pairwise.nil
  | .empty kind blank => exact List.pairwise_singleton _ _
  | .container kind items =>
    refine List.pairwise_cons.2 ⟨?_,items_ordered items _ _⟩
    intro c inside
    exact (items_bounds items (start + 1) (depth + 1) c inside).1

theorem items_ordered {kind : Kind} (items : Items kind) (start : Nat) (depth : Int) : Ordered (items.containers start depth) := by
  match items with
  | .one lead v after => exact tree_ordered v _ _
  | .more lead v after rest =>
    refine List.pairwise_append.2 ⟨tree_ordered v _ _,items_ordered rest _ _,?_⟩
    intro c here d there
    have first := tree_bounds v (start + lead.text.length) depth c here
    have second := items_bounds rest _ depth d there
    omega

end

theorem ordered_unique {containers : List (Value × List Entry)} (ordered : Ordered containers) {c d : Value × List Entry}
    (first : c ∈ containers) (second : d ∈ containers) (same : c.1.start = d.1.start) : c = d := by
  induction containers with
  | nil => cases first
  | cons e rest ih =>
    obtain ⟨smaller,ordered⟩ := List.pairwise_cons.1 ordered
    rcases mem_cons.1 first with rfl | later
    · rcases mem_cons.1 second with rfl | second
      · rfl
      · exact absurd (smaller d second) (by omega)
    · rcases mem_cons.1 second with rfl | other
      · exact absurd (smaller c later) (by omega)
      · exact ih ordered later other

section
variable {r : Reader} {rest : List UInt8}

theorem open_discarded {o : Open} {depth : Int} (reads : Reads r (o.text ++ rest)) (separators : Separators o.gap)
    (deep : depth < r.depth) : json_discard_until r depth = json_discard_until (r.go o.text.length (-1)) depth := by
  obtain ⟨kind,value,gap,items⟩ := o
  cases items with
  | none =>
    simp only [Open.text,append_assoc,cons_append,nil_append] at reads
    rw [discard_read deep (json_read_end kind reads separators) (fun is => nomatch is)]
    simp only [Open.text,length_append,length_singleton]
  | some items =>
    simp only [Open.text,append_assoc,cons_append,nil_append] at reads
    rw [discard_items items reads separators deep]
    simp only [Open.text,length_append,length_singleton,Nat.add_assoc]

/-- What is inside the container that is asked is given up. -/
theorem opens_discarded {inner : List Open} {depth : Int} (reads : Reads r (texts inner ++ rest))
    (separators : ∀ o ∈ inner, Separators o.gap) (deep : r.depth = depth + inner.length) :
    json_discard_until r depth = some (r.go (texts inner).length (-inner.length)) := by
  induction inner generalizing r with
  | nil =>
    rw [discard_done (by rw [deep]; simp)]
    exact congrArg some (go_zero r).symm
  | cons o inner ih =>
    rw [texts_cons,append_assoc] at reads
    rw [length_cons] at deep
    have next : (r.go o.text.length (-1)).depth = depth + inner.length := by
      rw [go_depth]
      omega
    rw [open_discarded reads (separators o (mem_cons_self ..)) (by omega),
      ih (reads.go (-1)) (fun p among => separators p (List.mem_cons_of_mem _ among)) next,go_go,texts_cons,length_append,
      length_cons]
    exact congrArg some (go_same rfl (by omega))

theorem iterate_discarded {container : Value} {s : Reader} (discarded : json_discard_until r container.depth = some s)
    (shallow : s.depth = container.depth) : iterate r container = iterate s container := by
  have again : json_discard_until s container.depth = some s := discard_done (Int.le_of_eq shallow)
  unfold iterate json_iter_array json_iter_object
  rw [discarded,again]

/-- Nothing is left but the bracket. -/
theorem iterate_end {kind : Kind} {value : Value} {gap : List UInt8} (reads : Reads r (gap ++ kind.closing :: rest))
    (separators : Separators gap) (level : r.depth = value.depth) (type : value.type = kind.type) :
    iterate r value = some (.finished ⟨.end_,r.current + gap.length,r.current + gap.length + 1,0⟩,r.go (gap.length + 1) (-1)) := by
  have still : json_discard_until r value.depth = some r := discard_done (Int.le_of_eq level)
  have read := json_read_end kind reads separators
  unfold iterate
  cases kind with
  | array =>
    rw [type]
    simp [Kind.type,json_iter_array,still,read]
  | object =>
    rw [type]
    simp [Kind.type,json_iter_object,still,read]

theorem value_no_end (v : Tree) (start : Nat) (depth : Int) : (v.value start depth).type ≠ .end_ := by
  cases v with
  | literal l => cases l <;> exact fun is => nomatch is
  | number n => exact fun is => nomatch is
  | string chars => exact fun is => nomatch is
  | empty kind _ => cases kind <;> exact fun is => nomatch is
  | container kind _ => cases kind <;> exact fun is => nomatch is

/-- The next item is answered. -/
theorem iterate_item {kind : Kind} {value : Value} {gap : List UInt8} {lead : Lead kind} {v : Tree}
    (reads : Reads r (gap ++ (lead.text ++ (v.token ++ rest)))) (separators : Separators gap) (stops : v.opens = 0 → Stops rest)
    (level : r.depth = value.depth) (type : value.type = kind.type) :
    iterate r value = some (outcome (r.current + gap.length) lead (v.value (r.current + gap.length + lead.text.length) value.depth),
      r.go (gap.length + lead.text.length + v.token.length) v.opens) := by
  have still : json_discard_until r value.depth = some r := discard_done (Int.le_of_eq level)
  cases kind with
  | array =>
    rw [← append_assoc] at reads
    have read := json_read_tree v reads (separators_append separators (blank_separators lead)) stops
    rw [length_append,← Nat.add_assoc,level] at read
    have iterated : json_iter_array r value =
        some (true,v.value (r.current + gap.length + lead.text.length) value.depth,
          r.go (gap.length + lead.text.length + v.token.length) v.opens) := by
      simp only [json_iter_array,still,Option.bind_eq_bind,Option.bind_some]
      rw [read]
      simp [value_good,value_no_end]
    rw [iterate,type]
    simp only [Kind.type,iterated,Option.map_some,if_true]
    rfl
  | object =>
    obtain ⟨read_key,after⟩ := json_read_key lead reads separators
    have read := json_read_tree v after (key_rest lead) stops
    have inside : r.current + (gap.length + Key.quoted lead) + (Key.rest lead).length = r.current + gap.length + lead.text.length := by
      have length : lead.text.length = Key.quoted lead + (Key.rest lead).length := key_length lead
      omega
    have behind : gap.length + Key.quoted lead + ((Key.rest lead).length + v.token.length) =
        gap.length + lead.text.length + v.token.length := by
      have length : lead.text.length = Key.quoted lead + (Key.rest lead).length := key_length lead
      omega
    rw [go_go,go_current,go_depth,Int.add_zero,Int.zero_add,level,inside,behind] at read
    rw [iterate,type]
    simp only [Kind.type,json_iter_object,still,read_key,Option.bind_eq_bind,Option.bind_some]
    simp [read,value_good,value_no_end,outcome]

end

/-- The open containers from a position of the text on, each with what it answered and what it still owes. -/
inductive Stack (doc : Document) (log : List Entry) : Nat → List Open → Prop
  | nil (start : Nat) : Stack doc log start []
  | cons {start : Nat} {o : Open} {opens : List Open} (separators : Separators o.gap) (type : o.value.type = o.kind.type)
      (depth : o.value.depth = opens.length + 1) (begun : o.value.start < start)
      (owed : (o.value,answers log o.value ++ o.entries start) ∈ doc.containers)
      (inside : ∀ c ∈ o.containers start, c ∈ doc.containers) (outer : Stack doc log (start + o.text.length) opens) :
      Stack doc log start (o :: opens)

/-- The reader is where the innermost container goes on. -/
structure Level (doc : Document) (r : Reader) (log : List Entry) (opens : List Open) : Prop where
  reads : Reads r (texts opens ++ doc.after.1)
  depth : r.depth = opens.length
  data : r.data = doc.text
  stack : Stack doc log r.current opens
  known : ∀ e ∈ log, e.container ∈ doc.containers.map Prod.fst ∧ e.container.start < r.current
  faithful : ∀ c ∈ doc.containers, answers log c.1 <+: c.2

/-- What holds between two calls. -/
structure Walking (doc : Document) (s : State) (opens : List Open) : Prop where
  level : Level doc s.reader s.log opens
  handles : s.handles = opens.map Open.value
  root : s.root = doc.root.value doc.before.1.length 0

theorem answers_append (log : List Entry) (e : Entry) (container : Value) :
    answers (log ++ [e]) container = answers log container ++ if e.container = container then [e] else [] := by
  rw [answers,answers,List.filter_append]
  by_cases same : e.container = container
  · rw [if_pos same]
    simp [same]
  · rw [if_neg same]
    simp [same]

section
variable {doc : Document} {log : List Entry} {start : Nat}

variable {opens : List Open} {e : Entry}

theorem stack_drop {inner : List Open} (stack : Stack doc log start (inner ++ opens)) :
    Stack doc log (start + (texts inner).length) opens ∧ ∀ o ∈ inner, Separators o.gap := by
  induction inner generalizing start with
  | nil => exact ⟨stack,forall_mem_nil _⟩
  | cons o inner ih =>
    cases stack with
    | cons separators type depth begun owed inside outer =>
      obtain ⟨rest,gaps⟩ := ih outer
      rw [texts_cons,length_append,← Nat.add_assoc]
      refine ⟨rest,?_⟩
      intro p among
      rcases mem_cons.1 among with rfl | among
      · exact separators
      · exact gaps p among

theorem stack_depth (stack : Stack doc log start opens) : ∀ o ∈ opens, o.value.depth ≤ opens.length := by
  induction stack with
  | nil => exact forall_mem_nil _
  | cons separators type depth begun owed inside outer ih =>
    intro o among
    rw [length_cons]
    rcases mem_cons.1 among with rfl | among
    · omega
    · have below := ih o among
      omega

/-- An answer of another container changes nothing. -/
theorem stack_log (stack : Stack doc log start opens)
    (other : ∀ o ∈ opens, e.container ≠ o.value) : Stack doc (log ++ [e]) start opens := by
  induction stack with
  | nil => exact .nil _
  | cons separators type depth begun owed inside outer ih =>
    refine .cons separators type depth begun ?_ inside (ih fun o among => other o (List.mem_cons_of_mem _ among))
    rw [answers_append,if_neg (other _ (mem_cons_self ..)),append_nil]
    exact owed

theorem containers_ordered (doc : Document) : Ordered doc.containers := tree_ordered _ _ _

/-- One more of the answers that are owed. -/
theorem answered {o : Open} {left : List Entry} (owed : (o.value,answers log o.value ++ e :: left) ∈ doc.containers)
    (here : e.container = o.value) (faithful : ∀ c ∈ doc.containers, answers log c.1 <+: c.2) :
    (o.value,answers (log ++ [e]) o.value ++ left) ∈ doc.containers ∧
      ∀ c ∈ doc.containers, answers (log ++ [e]) c.1 <+: c.2 := by
  constructor
  · rw [answers_append,if_pos here,append_assoc]
    exact owed
  · intro c among
    rw [answers_append]
    by_cases same : e.container = c.1
    · obtain rfl := ordered_unique (containers_ordered doc) owed among (congrArg Value.start (here.symm.trans same))
      rw [if_pos same]
      exact ⟨left,by simp⟩
    · rw [if_neg same,append_nil]
      exact faithful c among

theorem is_container_value (v : Tree) (start : Nat) (depth : Int) (outer : List Value) :
    (if is_container (v.value start depth) then v.value start depth :: outer else outer) =
      (v.inner start depth).map Open.value ++ outer := by
  cases v with
  | literal l => cases l <;> rfl
  | number n => rfl
  | string chars => rfl
  | empty kind _ => cases kind <;> rfl
  | container kind _ => cases kind <;> rfl

theorem inner_length (v : Tree) (start : Nat) (depth : Int) : ((v.inner start depth).length : Int) = v.opens := by
  cases v <;> rfl

theorem answers_fresh {container : Value} (fresh : ∀ e ∈ log, e.container.start < container.start) : answers log container = [] := by
  apply List.filter_eq_nil_iff.2
  intro e among
  have before := fresh e among
  intro same
  rw [of_decide_eq_true same] at before
  exact Nat.lt_irrefl _ before

/-- A container that was just opened owes all its answers. -/
theorem stack_inner (v : Tree) (inside : ∀ c ∈ v.containers start opens.length, c ∈ doc.containers)
    (fresh : ∀ e ∈ log, e.container.start < start) (outer : Stack doc log (start + v.text.length) opens) :
    Stack doc log (start + v.token.length) (v.inner start opens.length ++ opens) := by
  cases v with
  | literal l => exact outer
  | number n => exact outer
  | string chars => exact outer
  | empty kind blank =>
    refine .cons (blank_separators blank) rfl rfl (Nat.lt_succ_self _) ?_ (forall_mem_nil _) ?_
    · rw [answers_fresh fresh]
      exact inside _ (List.mem_singleton_self _)
    · rw [Nat.add_assoc,← length_append]
      exact outer
  | container kind items =>
    refine .cons (forall_mem_nil _) rfl rfl (Nat.lt_succ_self _) ?_ ?_ ?_
    · rw [answers_fresh fresh]
      exact inside _ (mem_cons_self ..)
    · exact fun c among => inside c (List.mem_cons_of_mem _ among)
    · rw [Nat.add_assoc,← length_append]
      exact outer

variable {r : Reader}

/-- What is inside the container that is asked is given up. -/
theorem level_drop {inner : List Open} (level : Level doc r log (inner ++ opens)) :
    Level doc (r.go (texts inner).length (-inner.length)) log opens ∧ ∀ o ∈ inner, Separators o.gap := by
  obtain ⟨stack,gaps⟩ := stack_drop level.stack
  have reads := level.reads
  rw [texts_append,append_assoc] at reads
  refine ⟨⟨reads.go _,?_,level.data,stack,?_,level.faithful⟩,gaps⟩
  · rw [go_depth,level.depth,length_append]
    omega
  · intro e among
    obtain ⟨container,before⟩ := level.known e among
    exact ⟨container,Nat.lt_of_lt_of_le before (Nat.le_add_right _ _)⟩

theorem known_append {before after : Nat} (later : before ≤ after)
    (known : ∀ e ∈ log, e.container ∈ doc.containers.map Prod.fst ∧ e.container.start < before)
    (one : e.container ∈ doc.containers.map Prod.fst ∧ e.container.start < before) :
    ∀ f ∈ log ++ [e], f.container ∈ doc.containers.map Prod.fst ∧ f.container.start < after := by
  intro f among
  rcases List.mem_append.1 among with old | new
  · obtain ⟨container,start⟩ := known f old
    exact ⟨container,Nat.lt_of_lt_of_le start later⟩
  · obtain rfl := List.mem_singleton.1 new
    exact ⟨one.1,Nat.lt_of_lt_of_le one.2 later⟩

/-- The container that is asked, its answer, and what is open behind it. -/
theorem level_next {o : Open} {outer : List Open} (level : Level doc r log (o :: outer)) :
    ∃ outcome s opens, iterate r o.value = some (outcome,s) ∧ opened o.value (outer.map Open.value) outcome = opens.map Open.value ∧
      Level doc s (log ++ [⟨o.value,outcome,s.current,s.depth⟩]) opens := by
  obtain ⟨kind,value,gap,items⟩ := o
  have reads := level.reads
  rw [texts_cons] at reads
  cases level.stack with
  | cons separators type depth begun owed inside rest =>
    dsimp only at separators type depth begun
    have level_depth : r.depth = value.depth := by
      rw [level.depth,depth,length_cons]
      rfl
    have container : value ∈ doc.containers.map Prod.fst := List.mem_map_of_mem owed
    -- The containers around this one are other containers: they are less deep.
    have others : ∀ p ∈ outer, value ≠ p.value := by
      intro p among same
      have below := stack_depth rest p among
      rw [← same,depth] at below
      omega
    cases items with
    | none =>
      have length : (Open.text ⟨kind,value,gap,none⟩).length = gap.length + 1 := by
        simp only [Open.text,length_append,length_singleton]
      rw [append_assoc] at reads
      have after := reads.go (-1)
      rw [length] at after rest
      simp only [Open.text,append_assoc,cons_append,nil_append] at reads
      refine ⟨_,_,outer,iterate_end reads separators level_depth type,rfl,?_⟩
      have entry : (⟨value,.finished ⟨.end_,r.current + gap.length,r.current + gap.length + 1,0⟩,
          (r.go (gap.length + 1) (-1)).current,(r.go (gap.length + 1) (-1)).depth⟩ : Entry) = finish value (r.current + gap.length) := by
        rw [go_current,go_depth,level_depth]
        rfl
      rw [entry]
      constructor
      · exact after
      · rw [go_depth,level.depth,length_cons]
        omega
      · exact level.data
      · exact stack_log rest others
      · exact known_append (Nat.le_add_right _ _) level.known ⟨container,begun⟩
      · exact (answered owed rfl level.faithful).2
    | some items =>
      have split (more : List UInt8) : Open.text ⟨kind,value,gap,some items⟩ ++ more =
          gap ++ (items.lead.text ++ (items.first.token ++ (texts (items.first.inner (r.current + gap.length + items.lead.text.length)
            value.depth) ++ ((items.behind value).text ++ more)))) := by
        rw [open_items_text,tree_text (r.current + gap.length + items.lead.text.length) items.first value.depth]
        simp only [append_assoc]
      have length : (Open.text ⟨kind,value,gap,some items⟩).length =
          gap.length + items.lead.text.length + items.first.text.length + (items.behind value).text.length := by
        rw [open_items_text]
        simp only [length_append,Nat.add_assoc]
      obtain ⟨behind_value,behind_kind⟩ := behind_value items value
      rw [append_assoc,split] at reads
      have item := iterate_item reads separators (inner_stops _ _ _ (behind_stops items value _)) level_depth type
      have after := ((reads.go 0).go 0).go items.first.opens
      rw [go_go,go_go,Int.zero_add,Int.zero_add,← Nat.add_assoc] at after
      refine ⟨_,_,items.first.inner (r.current + gap.length + items.lead.text.length) value.depth ++ items.behind value :: outer,
        item,?_,?_⟩
      · rw [List.map_append,List.map_cons,behind_value,← is_container_value]
        cases kind <;> rfl
      · have entry : (⟨value,outcome (r.current + gap.length) items.lead
              (items.first.value (r.current + gap.length + items.lead.text.length) value.depth),
            (r.go (gap.length + items.lead.text.length + items.first.token.length) items.first.opens).current,
            (r.go (gap.length + items.lead.text.length + items.first.token.length) items.first.opens).depth⟩ : Entry) =
            answer value (r.current + gap.length) items.lead items.first := by
          rw [go_current,go_depth,level_depth,answer]
          simp only [Nat.add_assoc]
        have owes : Open.entries r.current ⟨kind,value,gap,some items⟩ = answer value (r.current + gap.length) items.lead items.first ::
            (items.behind value).entries (r.current + gap.length + items.lead.text.length + items.first.text.length) :=
          items_entries items value _
        have holds : Open.containers r.current ⟨kind,value,gap,some items⟩ = _ := items_containers items value _
        rw [owes] at owed
        rw [holds] at inside
        obtain ⟨left,faithful⟩ := answered owed rfl level.faithful
        have below : Stack doc (log ++ [answer value (r.current + gap.length) items.lead items.first])
            (r.current + gap.length + items.lead.text.length + items.first.text.length) (items.behind value :: outer) := by
          refine .cons (behind_gap items value) ?_ ?_ ?_ ?_ ?_ ?_
          · rw [behind_value,behind_kind]
            exact type
          · rw [behind_value]
            exact depth
          · rw [behind_value]
            omega
          · rw [behind_value]
            exact left
          · exact fun c among => inside c (List.mem_append_right _ among)
          · rw [length,← Nat.add_assoc,← Nat.add_assoc,← Nat.add_assoc] at rest
            exact stack_log rest others
        have known := known_append (Nat.le_refl r.current) level.known
          (e := answer value (r.current + gap.length) items.lead items.first) ⟨container,begun⟩
        have level_length : value.depth = ((items.behind value :: outer).length : Int) := depth
        rw [entry]
        constructor
        · rw [texts_append,append_assoc,texts_cons,append_assoc]
          exact after
        · rw [go_depth,level_depth,length_append,depth,length_cons]
          push_cast
          rw [inner_length]
          omega
        · exact level.data
        · rw [go_current,← Nat.add_assoc,← Nat.add_assoc]
          rw [level_length] at inside ⊢
          refine stack_inner items.first (fun c among => inside c (List.mem_append_left _ among)) ?_ below
          intro e among
          have before := (known e among).2
          omega
        · intro e among
          obtain ⟨known,before⟩ := known e among
          rw [go_current]
          exact ⟨known,by omega⟩
        · exact faithful

end

/-- Every call of an open container is answered, and leads on. -/
theorem walking_next {doc : Document} {s : State} {opens : List Open} {i : Nat} (walking : Walking doc s opens)
    (some_open : i < opens.length) : ∃ t opens, next s i = some t ∧ Walking doc t opens := by
  obtain ⟨o,outer,rest⟩ : ∃ o outer, opens.drop i = o :: outer :=
    ⟨_,_,List.drop_eq_getElem_cons some_open⟩
  have parts : opens = opens.take i ++ o :: outer := by rw [← rest,List.take_append_drop]
  have level := walking.level
  rw [parts] at level
  obtain ⟨lower,gaps⟩ := level_drop level
  have handles : s.handles.drop i = o.value :: outer.map Open.value := by
    rw [walking.handles,← List.map_drop,rest,List.map_cons]
  obtain ⟨outcome,r,left,iterated,behind,after⟩ := level_next lower
  have reads := level.reads
  rw [texts_append,append_assoc] at reads
  have owner : o.value.depth = outer.length + 1 := by
    cases lower.stack with
    | cons _ _ depth => exact depth
  have deep : s.reader.depth = o.value.depth + (opens.take i).length := by
    rw [level.depth,owner,length_append,length_cons]
    omega
  have discarded := opens_discarded reads gaps deep
  have shallow : (s.reader.go (texts (opens.take i)).length (-(opens.take i).length)).depth = o.value.depth := by
    rw [lower.depth,owner,length_cons]
    omega
  rw [← iterate_discarded discarded shallow] at iterated
  refine ⟨⟨r,s.root,left.map Open.value,s.log ++ [⟨o.value,outcome,r.current,r.depth⟩]⟩,left,?_,⟨after,rfl,walking.root⟩⟩
  rw [next,handles]
  simp only [iterated,behind]

/-- The state before the first call. -/
def Document.begun (doc : Document) : State :=
  let root := doc.root.value doc.before.1.length 0
  ⟨(json_new_reader doc.text doc.text.length).go (doc.before.1.length + doc.root.token.length) doc.root.opens,root,
    if is_container root then [root] else [],[]⟩

/-- The first value is the root. -/
theorem root_read (doc : Document) : json_read (json_new_reader doc.text doc.text.length) = some (doc.begun.root,doc.begun.reader) ∧
    Walking doc doc.begun (doc.root.inner doc.before.1.length 0) := by
  have data : (json_new_reader doc.text doc.text.length).data = doc.text := List.take_length
  have text : doc.text = doc.before.1 ++ (doc.root.token ++ (texts (doc.root.inner doc.before.1.length 0) ++ doc.after.1)) := by
    rw [Document.text,tree_text doc.before.1.length doc.root 0,append_assoc]
  have reads : Reads (json_new_reader doc.text doc.text.length)
      (doc.before.1 ++ (doc.root.token ++ (texts (doc.root.inner doc.before.1.length 0) ++ doc.after.1))) :=
    ⟨rfl,Nat.zero_le _,data.trans text⟩
  have last : Stops doc.after.1 := by
    have stops := stops_gap (blank_separators doc.after) (fun c head => nomatch head : Stops [])
    rwa [append_nil] at stops
  have after := (reads.go 0).go doc.root.opens
  rw [go_go,Int.zero_add] at after
  constructor
  · rw [json_read_tree doc.root reads (blank_separators doc.before) (inner_stops _ _ _ last)]
    have start : (json_new_reader doc.text doc.text.length).current + doc.before.1.length = doc.before.1.length := Nat.zero_add _
    rw [start]
    rfl
  · refine ⟨⟨after,?_,data,?_,(forall_mem_nil _),fun c among => List.nil_prefix⟩,?_,rfl⟩
    · rw [inner_length]
      exact Int.zero_add _
    · have stack : Stack doc [] (doc.before.1.length + doc.root.token.length)
          (doc.root.inner doc.before.1.length ([] : List Open).length ++ []) :=
        stack_inner doc.root (fun c among => among) (forall_mem_nil _) (.nil _)
      rw [append_nil] at stack
      change Stack doc [] (0 + (doc.before.1.length + doc.root.token.length)) _
      rw [Nat.zero_add]
      exact stack
    · have handles := is_container_value doc.root doc.before.1.length 0 []
      rw [append_nil] at handles
      exact handles

theorem walking_step {doc : Document} {s t : State} {opens : List Open} {i : Nat} (walking : Walking doc s opens)
    (here : next s i = some t) : ∃ opens, Walking doc t opens := by
  have some_open : i < opens.length := by
    by_contra behind
    have nothing : s.handles.drop i = [] := by
      rw [walking.handles]
      exact List.drop_eq_nil_of_le (by simpa using behind)
    rw [next,nothing] at here
    cases here
  obtain ⟨u,left,same,walking⟩ := walking_next walking some_open
  obtain rfl := Option.some.inj (same.symm.trans here)
  exact ⟨left,walking⟩

theorem walking_run {doc : Document} {s t : State} {as : List Nat} (start : (walk doc).start s) (run : Run (walk doc) as s t) :
    ∃ opens, Walking doc t opens := by
  have initial : ∃ opens, Walking doc s opens := by
    obtain ⟨root,r,read,rfl⟩ := start
    obtain ⟨begins,walking⟩ := root_read doc
    obtain ⟨rfl,rfl⟩ := Prod.mk.inj (Option.some.inj (read.symm.trans begins))
    exact ⟨_,walking⟩
  have preserved : ∀ s i t, (∃ opens, Walking doc s opens) → (walk doc).step s i t → ∃ opens, Walking doc t opens := by
    rintro s i t ⟨opens,walking⟩ here
    exact walking_step walking here
  exact run_invariant preserved run initial

/-- Whatever a consumer asks for, it gets of each container its items in order and then its end;
    every call of an open container is answered, and the depth is the number of containers that are open. -/
theorem walk_faithful {doc : Document} {s t : State} {as : List Nat} (start : (walk doc).start s) (run : Run (walk doc) as s t) :
    t.root = doc.root.value doc.before.1.length 0 ∧ (∀ c ∈ doc.containers, answers t.log c.1 <+: c.2) ∧
      (∀ e ∈ t.log, ∃ c ∈ doc.containers, e.container = c.1) ∧ (∀ i < t.handles.length, ∃ u, next t i = some u) ∧
      t.reader.depth = t.handles.length ∧ Ordered doc.containers ∧
      List.Forall₂ (Tells doc.text) doc.containers doc.root.nested := by
  obtain ⟨opens,walking⟩ := walking_run start run
  have length : t.handles.length = opens.length := by rw [walking.handles,List.length_map]
  refine ⟨walking.root,walking.level.faithful,?_,?_,?_,containers_ordered doc,document_tells doc⟩
  · intro e among
    obtain ⟨c,inside,same⟩ := List.mem_map.1 (walking.level.known e among).1
    exact ⟨c,inside,same.symm⟩
  · intro i some_open
    obtain ⟨u,_,answered,_⟩ := walking_next walking (length ▸ some_open)
    exact ⟨u,answered⟩
  · rw [walking.level.depth,length]

def no_blank : Blank := ⟨[],fun _ among => nomatch among⟩

/-- The text "[[]]". -/
def nested : Document := ⟨no_blank,.container .array (.one no_blank (.empty .array no_blank) no_blank),no_blank⟩

/-- What an answer gives to the consumer. -/
def values : Outcome → List Value
  | .element value => [value]
  | .pair key value => [key,value]
  | .finished _ => []

/-- A value points at the whole text of a value, for a string at what is between the quotes. -/
def Complete (text : List UInt8) (value : Value) : Prop :=
  ∃ v : Tree, value.type = v.type ∧ slice text value =
    match v with
    | .string chars => chars_text chars
    | v => v.text

theorem nested_run : ∃ s t, (walk nested).start s ∧ Run (walk nested) [0] s t ∧
    t.log = [⟨⟨.array,0,1,1⟩,.element ⟨.array,1,2,2⟩,2,2⟩] := by
  obtain ⟨read,walking⟩ := root_read nested
  obtain ⟨t,opens,here,walking⟩ := walking_next (i := 0) walking (by decide)
  refine ⟨nested.begun,t,⟨_,_,read,rfl⟩,.step here (.done t),?_⟩
  have container : (⟨.array,0,1,1⟩,_) ∈ nested.containers := mem_cons_self ..
  have first := walking.level.faithful _ container
  have handles : nested.begun.handles = [⟨.array,0,1,1⟩] := rfl
  rw [next,handles] at here
  simp only [List.drop_zero] at here
  cases answered : iterate nested.begun.reader ⟨.array,0,1,1⟩ with
  | none =>
    rw [answered] at here
    cases here
  | some answer =>
    rw [answered] at here
    obtain rfl := Option.some.inj here
    simp only [Document.begun,nil_append,answers,List.filter_cons,List.filter_nil,decide_true,if_true] at first ⊢
    obtain ⟨rest,whole⟩ := first
    exact congrArg (·.take 1) whole

/-- Of a container the consumer gets the bracket only. -/
theorem bracket_only : ¬ ∀ doc s t as, (walk doc).start s → Run (walk doc) as s t → ∀ e ∈ t.log, ∀ value ∈ values e.outcome,
    Complete doc.text value := by
  intro all
  obtain ⟨s,t,start,run,log⟩ := nested_run
  have whole := all nested s t [0] start run _ (log ▸ List.mem_singleton_self _) _ (List.mem_singleton_self _)
  obtain ⟨v,type,same⟩ := whole
  cases v with
  | literal l => cases l <;> cases type
  | number n => cases type
  | string chars => cases type
  | empty kind blank =>
    have long := congrArg List.length same
    simp [Tree.text,slice] at long
    omega
  | container kind items =>
    have long := congrArg List.length same
    simp [Tree.text,slice] at long
    omega

theorem walk_faithful_nested : ∃ s t, (walk nested).start s ∧ Run (walk nested) [0] s t ∧ t.reader.depth = t.handles.length := by
  obtain ⟨s,t,start,run,_⟩ := nested_run
  exact ⟨s,t,start,run,(walk_faithful start run).2.2.2.2.1⟩

end MicroOS.Json

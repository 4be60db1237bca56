import MicroOS.Messages

/-!
The linked lists of topics and entries are a map from topics to queues: along every run
each `message_recv` returns the start of the oldest message of its topic that was not yet
received, and no operation touches another topic's queue (`messages_refine`).
-/
namespace MicroOS.MessageQueues
open Runs Messages
open Function (update update_of_ne)
open List (flatMap_append flatMap_cons forall_mem_cons getLast_mem map_cons mem_cons mem_cons_self mem_filter
  mem_flatMap mem_map mem_map_of_mem nil_append nodup_cons)

/-- What was received from each topic and what still waits there, oldest first. -/
structure Queues where
  received : TopicId → List (List UInt8)
  waiting : TopicId → List (List UInt8)

def Queues.empty : Queues := ⟨fun _ => [],fun _ => []⟩

def Queues.send (q : Queues) (topic_id : TopicId) (data : List UInt8) : Queues :=
  { q with waiting := update q.waiting topic_id (q.waiting topic_id ++ [data]) }

/-- The oldest message leaves its queue, if there is one; the receiver gets as much of it
    as its buffer holds. -/
def Queues.recv (q : Queues) (topic_id : TopicId) (buffer_size : Nat) : Queues × List UInt8 :=
  match q.waiting topic_id with
  | [] => (q,[])
  | oldest :: rest =>
    ({ received := update q.received topic_id (q.received topic_id ++ [oldest])
       waiting := update q.waiting topic_id rest },oldest.take buffer_size)

/-- The actions are what the queues do. -/
inductive Follows : Queues → List Action → Queues → Prop
  | done (q : Queues) : Follows q [] q
  | send {q q' : Queues} {topic_id : TopicId} {data : List UInt8} {blocks : Blocks} {as : List Action}
      (rest : Follows (q.send topic_id data) as q') : Follows q (.send topic_id data blocks :: as) q'
  | recv {q q' : Queues} {topic_id : TopicId} {buffer_size : Nat} {bytes : List UInt8} {as : List Action}
      (returned : bytes = (q.recv topic_id buffer_size).2) (rest : Follows (q.recv topic_id buffer_size).1 as q') :
      Follows q (.recv topic_id buffer_size bytes :: as) q'

def sent (topic_id : TopicId) : List Action → List (List UInt8)
  | [] => []
  | .send id data _ :: as => if id = topic_id then data :: sent topic_id as else sent topic_id as
  | .recv .. :: as => sent topic_id as

/-- Every message was received once or still waits, in the order of the sends. -/
theorem follows_conserves {q q' : Queues} {as : List Action} (follows : Follows q as q') (topic_id : TopicId) :
    q.received topic_id ++ q.waiting topic_id ++ sent topic_id as = q'.received topic_id ++ q'.waiting topic_id := by
  induction follows with
  | done q => rw [sent,List.append_nil]
  | @send q q' id data blocks as rest ih =>
    rw [← ih,sent]
    by_cases same : id = topic_id
    · subst same
      simp [Queues.send]
    · simp [Queues.send,same,update_of_ne (Ne.symm same)]
  | @recv q q' id size bytes as returned rest ih =>
    rw [← ih,sent,Queues.recv]
    cases waiting : q.waiting id with
    | nil => rfl
    | cons oldest older =>
      by_cases same : id = topic_id
      · subst same
        simp [waiting]
      · simp [update_of_ne (Ne.symm same)]

/-- An entry of a queue and its data block. -/
structure Item where
  address : Nat
  data : Nat
  bytes : List UInt8

/-- A topic and its queue, oldest entry first. -/
structure View where
  address : Nat
  topic_id : TopicId
  items : List Item

def firstItem (items : List Item) : Nat := (items.map Item.address).headD 0
def lastItem (items : List Item) : Nat := (items.map Item.address).getLastD 0
def firstTopic (views : List View) : Nat := (views.map View.address).headD 0

/-- The entries of a queue are linked, from the first one to NULL. -/
def Linked (k : Kernel) : List Item → Prop
  | [] => True
  | i :: rest => i.address ≠ 0 ∧
      k.entry_at i.address = some { data := i.data, size := i.bytes.length, next := firstItem rest } ∧
      (if i.bytes.length = 0 then i.data = 0 else i.data ≠ 0 ∧ k.data_at i.data = some i.bytes) ∧ Linked k rest

/-- The topics are linked, each with its head and tail: both NULL, or the first and the
    last entry of the queue. -/
def Listed (k : Kernel) : List View → Prop
  | [] => True
  | v :: rest => v.address ≠ 0 ∧
      k.topic_at v.address = some {
        topic_id := v.topic_id, head := firstItem v.items, tail := lastItem v.items, next := firstTopic rest } ∧
      Linked k v.items ∧ Listed k rest

def entries (views : List View) : List Nat := views.flatMap fun v => v.items.map Item.address
def dataBlocks (views : List View) : List Nat :=
  views.flatMap fun v => (v.items.filter fun i => i.bytes.length ≠ 0).map Item.data

/-- The queue of a topic; a topic that was never used has none. -/
def queueOf (views : List View) (topic_id : TopicId) : List (List UInt8) :=
  match views.find? (fun v => v.topic_id = topic_id) with
  | some v => v.items.map Item.bytes
  | none => []

structure Represents (k : Kernel) (views : List View) : Prop where
  start : k.topics = firstTopic views
  made : k.made = views.length
  listed : Listed k views
  topics : (views.map View.address).Nodup
  ids : (views.map View.topic_id).Nodup
  entries : (entries views).Nodup
  data : (dataBlocks views).Nodup

section
variable {k k' : Kernel}

theorem linked_mem {items : List Item} (linked : Linked k items) : ∀ i ∈ items, i.address ≠ 0 ∧
    (∃ next, k.entry_at i.address = some { data := i.data, size := i.bytes.length, next := next }) ∧
    if i.bytes.length = 0 then i.data = 0 else i.data ≠ 0 ∧ k.data_at i.data = some i.bytes := by
  induction items with
  | nil => simp
  | cons j rest ih =>
    obtain ⟨nonzero,entry,data,later⟩ := linked
    intro i member
    cases mem_cons.mp member with
    | inl same =>
      subst same
      exact ⟨nonzero,⟨_,entry⟩,data⟩
    | inr inner => exact ih later i inner

theorem listed_mem {views : List View} (listed : Listed k views) : ∀ v ∈ views, v.address ≠ 0 ∧
    (∃ next, k.topic_at v.address = some {
      topic_id := v.topic_id, head := firstItem v.items, tail := lastItem v.items, next := next }) ∧ Linked k v.items := by
  induction views with
  | nil => simp
  | cons w rest ih =>
    obtain ⟨nonzero,topic,linked,later⟩ := listed
    intro v member
    cases mem_cons.mp member with
    | inl same =>
      subst same
      exact ⟨nonzero,⟨_,topic⟩,linked⟩
    | inr inner => exact ih later v inner

theorem lastItem_zero {items : List Item} (linked : Linked k items) : lastItem items = 0 ↔ items = [] := by
  constructor
  · intro zero
    by_contra some_
    have last := getLast_mem some_
    have address : lastItem items = (items.getLast some_).address := by
      rw [lastItem,List.getLastD_eq_getLast?,List.getLast?_map,List.getLast?_eq_getLast_of_ne_nil some_]
      rfl
    exact (linked_mem linked _ last).1 (address ▸ zero)
  · rintro rfl
    rfl

/-- What `find_topic` returns for a list of topics. -/
def addressOf (views : List View) (topic_id : TopicId) : Nat :=
  match views.find? (fun v => v.topic_id = topic_id) with
  | some v => v.address
  | none => 0

theorem find_from_listed {views : List View} (listed : Listed k views) {fuel : Nat} (enough : views.length < fuel)
    (topic_id : TopicId) : find_from k topic_id fuel (firstTopic views) = some (addressOf views topic_id) := by
  induction views generalizing fuel with
  | nil =>
    obtain ⟨fuel,rfl⟩ : ∃ n, fuel = n + 1 := ⟨fuel - 1,by omega⟩
    rfl
  | cons v rest ih =>
    obtain ⟨fuel,rfl⟩ : ∃ n, fuel = n + 1 := ⟨fuel - 1,by omega⟩
    obtain ⟨nonzero,topic,linked,later⟩ := listed
    have first : firstTopic (v :: rest) = v.address := rfl
    rw [find_from,first,if_neg nonzero,topic]
    by_cases same : v.topic_id = topic_id
    · simp [same,addressOf]
    · have shorter : rest.length < fuel := by simpa using enough
      simp only [same,if_false,ih later shorter,addressOf,List.find?_cons,decide_false]

theorem find_topic_represents {views : List View} (rep : Represents k views) (topic_id : TopicId) :
    find_topic k topic_id = some (addressOf views topic_id) := by
  rw [find_topic,rep.start,rep.made]
  exact find_from_listed rep.listed (Nat.lt_succ_self _) topic_id

/-- Nothing changes in the blocks of the items. -/
def SameItems (k k' : Kernel) (items : List Item) : Prop := ∀ i ∈ items,
  k'.entry_at i.address = k.entry_at i.address ∧ (i.bytes.length ≠ 0 → k'.data_at i.data = k.data_at i.data)

theorem linked_frame {items : List Item} (linked : Linked k items) (same : SameItems k k' items) : Linked k' items := by
  induction items with
  | nil => trivial
  | cons i rest ih =>
    obtain ⟨nonzero,entry,data,later⟩ := linked
    obtain ⟨⟨entry_same,data_same⟩,others⟩ := forall_mem_cons.mp same
    refine ⟨nonzero,entry_same.trans entry,?_,ih later others⟩
    by_cases empty : i.bytes.length = 0
    · rwa [if_pos empty] at data ⊢
    · rw [if_neg empty] at data ⊢
      exact ⟨data.1,(data_same empty).trans data.2⟩

/-- Nothing changes in the blocks of the topics. -/
def SameViews (k k' : Kernel) (views : List View) : Prop := ∀ v ∈ views,
  k'.topic_at v.address = k.topic_at v.address ∧ SameItems k k' v.items

theorem listed_frame {views : List View} (listed : Listed k views) (same : SameViews k k' views) : Listed k' views := by
  induction views with
  | nil => trivial
  | cons v rest ih =>
    obtain ⟨nonzero,topic,linked,later⟩ := listed
    obtain ⟨⟨topic_same,items_same⟩,others⟩ := forall_mem_cons.mp same
    exact ⟨nonzero,topic_same.trans topic,linked_frame linked items_same,ih later others⟩

variable {pre post : List View} {i : Item}

/-- One topic's queue is replaced by another. -/
theorem listed_replace {v : View} {items : List Item} (listed : Listed k (pre ++ v :: post))
    (before : SameViews k k' pre) (after : SameViews k k' post)
    (topic : ∀ next, k.topic_at v.address = some {
        topic_id := v.topic_id, head := firstItem v.items, tail := lastItem v.items, next := next } →
      k'.topic_at v.address = some {
        topic_id := v.topic_id, head := firstItem items, tail := lastItem items, next := next })
    (linked : Linked k' items) : Listed k' (pre ++ { v with items := items } :: post) := by
  induction pre with
  | nil =>
    obtain ⟨nonzero,here,-,later⟩ := listed
    exact ⟨nonzero,topic _ here,linked,listed_frame later after⟩
  | cons w rest ih =>
    obtain ⟨nonzero,here,w_linked,later⟩ := listed
    obtain ⟨⟨w_topic,w_items⟩,others⟩ := forall_mem_cons.mp before
    have first : firstTopic (rest ++ { v with items := items } :: post) = firstTopic (rest ++ v :: post) := by
      cases rest <;> rfl
    have here' := w_topic.trans here
    rw [List.append_eq,← first] at here'
    exact ⟨nonzero,here',linked_frame w_linked w_items,ih later others⟩

/-- An entry is hung behind the last one. -/
theorem linked_snoc {items : List Item} {new : Item} (linked : Linked k items) (here : Linked k' [new])
    (distinct : (items.map Item.address).Nodup)
    (entry : ∀ i ∈ items, ∀ e, k.entry_at i.address = some e → k'.entry_at i.address =
      some (if i.address = lastItem items then { e with next := new.address } else e))
    (data : ∀ i ∈ items, i.bytes.length ≠ 0 → k'.data_at i.data = k.data_at i.data) : Linked k' (items ++ [new]) := by
  induction items with
  | nil => exact here
  | cons i rest ih =>
    obtain ⟨nonzero,first,block,later⟩ := linked
    rw [map_cons,nodup_cons] at distinct
    have entry_here := entry i mem_cons_self _ first
    have block' : if i.bytes.length = 0 then i.data = 0 else i.data ≠ 0 ∧ k'.data_at i.data = some i.bytes := by
      by_cases empty : i.bytes.length = 0
      · rwa [if_pos empty] at block ⊢
      · rw [if_neg empty] at block ⊢
        exact ⟨block.1,(data i mem_cons_self empty).trans block.2⟩
    cases rest with
    | nil =>
      rw [if_pos (show i.address = lastItem [i] from rfl)] at entry_here
      exact ⟨nonzero,entry_here,block',here⟩
    | cons j rest =>
      have last : lastItem (i :: j :: rest) = lastItem (j :: rest) := rfl
      have in_rest : lastItem (j :: rest) ∈ (j :: rest).map Item.address := by
        rw [lastItem,List.getLastD_eq_getLast?,List.getLast?_eq_getLast_of_ne_nil (by simp)]
        exact getLast_mem _
      have other : i.address ≠ lastItem (i :: j :: rest) := by
        intro same
        rw [last] at same
        exact distinct.1 (same ▸ in_rest)
      rw [if_neg other] at entry_here
      refine ⟨nonzero,entry_here,block',ih later distinct.2 ?_ ?_⟩
      · intro x member e found
        rw [← last]
        exact entry x (List.mem_cons_of_mem _ member) e found
      · intro x member
        exact data x (List.mem_cons_of_mem _ member)

/-- The blocks of different topics and of different entries are different. -/
theorem represents_apart {v : View} (rep : Represents k (pre ++ v :: post)) :
    ∀ w ∈ pre ++ post, w.address ≠ v.address ∧ (∀ i ∈ w.items, ∀ j ∈ v.items, i.address ≠ j.address) ∧
      ∀ i ∈ w.items, i.bytes.length ≠ 0 → ∀ j ∈ v.items, j.bytes.length ≠ 0 → i.data ≠ j.data := by
  intro w member
  have moved : (pre ++ v :: post).Perm (v :: (pre ++ post)) := List.perm_middle
  have topics := (moved.map View.address).nodup_iff.mp rep.topics
  have entries := (moved.flatMap_right _).nodup_iff.mp rep.entries
  have data := (moved.flatMap_right _).nodup_iff.mp rep.data
  rw [map_cons,nodup_cons] at topics
  rw [flatMap_cons,List.nodup_append] at entries data
  refine ⟨?_,?_,?_⟩
  · intro same
    exact topics.1 (same ▸ mem_map_of_mem member)
  · intro i i_member j j_member same
    exact entries.2.2 _ (mem_map_of_mem j_member) _
      (mem_flatMap.mpr ⟨w,member,mem_map_of_mem i_member⟩) same.symm
  · intro i i_member i_some j j_member j_some same
    exact data.2.2 _ (mem_map_of_mem (mem_filter.mpr ⟨j_member,by simpa using j_some⟩)) _
      (mem_flatMap.mpr ⟨w,member,mem_map_of_mem (mem_filter.mpr ⟨i_member,by simpa using i_some⟩)⟩) same.symm

theorem represents_items {v : View} (rep : Represents k (pre ++ v :: post)) :
    (v.items.map Item.address).Nodup ∧ ((v.items.filter fun i => i.bytes.length ≠ 0).map Item.data).Nodup := by
  have moved : (pre ++ v :: post).Perm (v :: (pre ++ post)) := List.perm_middle
  have entries := (moved.flatMap_right _).nodup_iff.mp rep.entries
  have data := (moved.flatMap_right _).nodup_iff.mp rep.data
  rw [flatMap_cons,List.nodup_append] at entries data
  exact ⟨entries.1,data.1⟩

/-- What is in use is not fresh. -/
theorem represents_fresh {views : List View} (rep : Represents k views) {blocks : Blocks} (fresh : Fresh k blocks) :
    blocks.topic ∉ views.map View.address ∧ blocks.entry ∉ entries views ∧ blocks.data ∉ dataBlocks views := by
  refine ⟨?_,?_,?_⟩
  · intro member
    obtain ⟨v,v_member,same⟩ := mem_map.mp member
    obtain ⟨-,⟨_,topic⟩,-⟩ := listed_mem rep.listed v v_member
    rw [same,fresh.topic.2] at topic
    cases topic
  · intro member
    obtain ⟨v,v_member,inner⟩ := mem_flatMap.mp member
    obtain ⟨i,i_member,same⟩ := mem_map.mp inner
    obtain ⟨-,⟨_,entry⟩,-⟩ := linked_mem (listed_mem rep.listed v v_member).2.2 i i_member
    rw [same,fresh.entry.2] at entry
    cases entry
  · intro member
    obtain ⟨v,v_member,inner⟩ := mem_flatMap.mp member
    obtain ⟨i,i_member,same⟩ := mem_map.mp inner
    obtain ⟨i_member,some_⟩ := mem_filter.mp i_member
    obtain ⟨-,-,data⟩ := linked_mem (listed_mem rep.listed v v_member).2.2 i i_member
    rw [if_neg (by simpa using some_),same,fresh.data.2] at data
    cases data.2

theorem make_entry_topic (data : List UInt8) (blocks : Blocks) : (make_entry k data blocks).topic_at = k.topic_at := by
  rw [make_entry]
  split <;> rfl

theorem make_entry_entry (data : List UInt8) (blocks : Blocks) (a : Nat) : (make_entry k data blocks).entry_at a =
    if a = blocks.entry then some { data := data_block data blocks.data, size := data.length, next := 0 } else k.entry_at a := by
  rw [make_entry]
  split <;> rfl

theorem make_entry_data (data : List UInt8) (blocks : Blocks) (a : Nat) : (make_entry k data blocks).data_at a =
    if data.length ≠ 0 ∧ a = blocks.data then some data else k.data_at a := by
  rw [make_entry]
  split
  · simp [setEntry, *]
  · simp [setEntry,setData, *]

theorem mem_entries {views : List View} {v : View} (v_member : v ∈ views) (i_member : i ∈ v.items) :
    i.address ∈ entries views := mem_flatMap.mpr ⟨v,v_member,mem_map_of_mem i_member⟩

theorem mem_dataBlocks {views : List View} {v : View} (v_member : v ∈ views) (i_member : i ∈ v.items)
    (some_ : i.bytes.length ≠ 0) : i.data ∈ dataBlocks views :=
  mem_flatMap.mpr ⟨v,v_member,mem_map_of_mem (mem_filter.mpr ⟨i_member,by simpa using some_⟩)⟩

theorem lastItem_mem {items : List Item} (some_ : items ≠ []) : ∃ i ∈ items, i.address = lastItem items := by
  refine ⟨items.getLast some_,getLast_mem some_,?_⟩
  rw [lastItem,List.getLastD_eq_getLast?,List.getLast?_map,List.getLast?_eq_getLast_of_ne_nil some_]
  rfl

/-- A queue that grows by an entry, whatever else happens to blocks that are not in use. -/
theorem grown_represents {v : View} {new : Item} (rep : Represents k (pre ++ v :: post))
    (start : k'.topics = k.topics) (made : k'.made = k.made)
    (topic : ∀ next, k.topic_at v.address = some {
        topic_id := v.topic_id, head := firstItem v.items, tail := lastItem v.items, next := next } →
      k'.topic_at v.address = some {
        topic_id := v.topic_id, head := firstItem (v.items ++ [new]), tail := new.address, next := next })
    (topics : ∀ a, a ≠ v.address → k'.topic_at a = k.topic_at a) (here : Linked k' [new])
    (entry : ∀ a ∈ entries (pre ++ v :: post), ∀ e, k.entry_at a = some e →
      k'.entry_at a = some (if a = lastItem v.items then { e with next := new.address } else e))
    (unused : new.address ∉ entries (pre ++ v :: post))
    (data : ∀ a ∈ dataBlocks (pre ++ v :: post), k'.data_at a = k.data_at a)
    (block : new.bytes.length ≠ 0 → new.data ∉ dataBlocks (pre ++ v :: post)) :
    Represents k' (pre ++ { v with items := v.items ++ [new] } :: post) := by
  have in_views : v ∈ pre ++ v :: post := by simp
  have linked := (listed_mem rep.listed v in_views).2.2
  have apart := represents_apart rep
  have inner : ∀ w ∈ pre ++ post, w ∈ pre ++ v :: post := by
    intro w member
    simp only [List.mem_append,mem_cons] at member ⊢
    tauto
  have others : ∀ w ∈ pre ++ post, k'.topic_at w.address = k.topic_at w.address ∧ SameItems k k' w.items := by
    intro w member
    obtain ⟨address,items,-⟩ := apart w member
    refine ⟨topics _ address,?_⟩
    intro i i_member
    obtain ⟨nonzero,⟨next,found⟩,-⟩ := linked_mem (listed_mem rep.listed w (inner w member)).2.2 i i_member
    have not_last : i.address ≠ lastItem v.items := by
      intro same
      by_cases empty : v.items = []
      · rw [empty] at same
        exact nonzero same
      · obtain ⟨j,j_member,last⟩ := lastItem_mem empty
        exact items i i_member j j_member (same.trans last.symm)
    rw [entry _ (mem_entries (inner w member) i_member) _ found,if_neg not_last,found]
    exact ⟨rfl,fun some_ => data _ (mem_dataBlocks (inner w member) i_member some_)⟩
  have tail : lastItem (v.items ++ [new]) = new.address := by simp [lastItem]
  have grown : Linked k' (v.items ++ [new]) := by
    refine linked_snoc linked here (represents_items rep).1 ?_ ?_
    · intro i member e found
      exact entry _ (mem_entries in_views member) e found
    · intro i member some_
      exact data _ (mem_dataBlocks in_views member some_)
  have parts : ∀ f : View → List Nat, ∀ x, f { v with items := v.items ++ [new] } = f v ++ x →
      ((pre ++ { v with items := v.items ++ [new] } :: post).flatMap f).Perm (x ++ (pre ++ v :: post).flatMap f) := by
    intro f x more
    rw [flatMap_append,flatMap_append,flatMap_cons,flatMap_cons,more]
    grind
  constructor
  · rw [start,rep.start]
    cases pre <;> rfl
  · rw [made,rep.made]
    simp
  · refine listed_replace rep.listed (fun w member => others w (by simp [member])) (fun w member => others w (by simp [member]))
      ?_ grown
    rw [tail]
    exact topic
  · simpa using rep.topics
  · simpa using rep.ids
  · have perm := parts (fun w => w.items.map Item.address) [new.address] (by simp)
    exact perm.nodup_iff.mpr (nodup_cons.mpr ⟨unused,rep.entries⟩)
  · by_cases empty : new.bytes.length = 0
    · have perm := parts (fun w => (w.items.filter fun i => i.bytes.length ≠ 0).map Item.data) []
        (by simp [List.eq_nil_of_length_eq_zero empty])
      exact perm.nodup_iff.mpr rep.data
    · have some_ : new.bytes ≠ [] := fun none_ => empty (by rw [none_]; rfl)
      have perm := parts (fun w => (w.items.filter fun i => i.bytes.length ≠ 0).map Item.data) [new.data]
        (by simp [List.filter_append,some_])
      exact perm.nodup_iff.mpr (nodup_cons.mpr ⟨block empty,rep.data⟩)

theorem append_entry_represents {pre post : List View} {v : View} (rep : Represents k (pre ++ v :: post)) (data : List UInt8)
    {blocks : Blocks} (entry : blocks.entry ≠ 0 ∧ blocks.entry ∉ entries (pre ++ v :: post))
    (block : blocks.data ≠ 0 ∧ blocks.data ∉ dataBlocks (pre ++ v :: post)) :
    ∃ k', append_entry (make_entry k data blocks) v.address blocks.entry = some k' ∧ Represents k' (pre ++
      { v with items := v.items ++ [⟨blocks.entry,data_block data blocks.data,data⟩] } :: post) := by
  have in_views : v ∈ pre ++ v :: post := by simp
  obtain ⟨nonzero,⟨next,topic⟩,linked⟩ := listed_mem rep.listed v in_views
  have made_entry : ∀ a, a ≠ blocks.entry → (make_entry k data blocks).entry_at a = k.entry_at a := by
    intro a other
    rw [make_entry_entry,if_neg other]
  have made_data : ∀ a ∈ dataBlocks (pre ++ v :: post), (make_entry k data blocks).data_at a = k.data_at a := by
    intro a member
    rw [make_entry_data,if_neg]
    rintro ⟨-,same⟩
    exact block.2 (same ▸ member)
  have blank : ∀ k', k'.entry_at blocks.entry = (make_entry k data blocks).entry_at blocks.entry →
      k'.data_at = (make_entry k data blocks).data_at → Linked k' [⟨blocks.entry,data_block data blocks.data,data⟩] := by
    intro k' same_entry same_data
    refine ⟨entry.1,?_,?_,trivial⟩
    · rw [same_entry,make_entry_entry,if_pos rfl]
      rfl
    · rw [same_data]
      by_cases empty : data.length = 0
      · simp [data_block,empty]
      · simp [data_block,empty,block.1,make_entry_data]
  have static : (make_entry k data blocks).topics = k.topics ∧ (make_entry k data blocks).made = k.made := by
    rw [make_entry]
    split <;> exact ⟨rfl,rfl⟩
  have unused : data.length ≠ 0 → data_block data blocks.data ∉ dataBlocks (pre ++ v :: post) := by
    intro some_
    rw [data_block,if_neg some_]
    exact block.2
  rw [append_entry,make_entry_topic,topic]
  by_cases empty : v.items = []
  · have zero : lastItem v.items = 0 := (lastItem_zero linked).mpr empty
    dsimp only
    rw [if_neg (not_not.mpr zero)]
    refine ⟨_,rfl,grown_represents rep static.1 static.2 ?_ ?_ (blank _ rfl rfl) ?_ entry.2 made_data unused⟩
    · intro next' found
      obtain rfl : next = next' := by
        rw [topic] at found
        simpa using found
      simp [setTopic,empty,firstItem]
    · intro a other
      simp [setTopic,other,make_entry_topic]
    · intro a member e found
      have live : a ≠ lastItem v.items := by
        obtain ⟨w,w_member,inner⟩ := mem_flatMap.mp member
        obtain ⟨i,i_member,same⟩ := mem_map.mp inner
        rw [zero,← same]
        exact (linked_mem (listed_mem rep.listed w w_member).2.2 i i_member).1
      rw [if_neg live]
      exact (made_entry a fun same => entry.2 (same ▸ member)).trans found
  · obtain ⟨i,i_member,last⟩ := lastItem_mem empty
    obtain ⟨i_nonzero,⟨i_next,i_entry⟩,-⟩ := linked_mem linked i i_member
    have away : i.address ≠ blocks.entry := fun same => entry.2 (same ▸ mem_entries in_views i_member)
    dsimp only
    rw [← last,if_pos i_nonzero,made_entry _ away,i_entry]
    refine ⟨_,rfl,grown_represents rep static.1 static.2 ?_ ?_ (blank _ ?_ rfl) ?_ entry.2 made_data unused⟩
    · intro next' found
      obtain rfl : next = next' := by
        rw [topic] at found
        simpa using found
      have first : firstItem (v.items ++ [⟨blocks.entry,data_block data blocks.data,data⟩]) = firstItem v.items := by
        cases items : v.items with
        | nil => exact absurd items empty
        | cons j rest => rfl
      rw [first]
      exact if_pos rfl
    · intro a other
      simp [setTopic,setEntry,other,make_entry_topic]
    · simp [setTopic,setEntry,Ne.symm away]
    · intro a member e found
      have other : a ≠ blocks.entry := fun same => entry.2 (same ▸ member)
      by_cases same : a = lastItem v.items
      · subst same
        rw [← last,i_entry] at found
        cases found
        simp [setTopic,setEntry,last]
      · rw [if_neg same]
        simp [setTopic,setEntry,last,same,made_entry a other,found]

theorem queueOf_cons (v : View) (views : List View) (topic_id : TopicId) : queueOf (v :: views) topic_id =
    if v.topic_id = topic_id then v.items.map Item.bytes else queueOf views topic_id := by
  rw [queueOf,List.find?_cons]
  by_cases same : v.topic_id = topic_id
  · simp [same]
  · simp [same,queueOf]

theorem queueOf_found {pre post : List View} {v : View} (others : ∀ w ∈ pre, w.topic_id ≠ v.topic_id) :
    queueOf (pre ++ v :: post) v.topic_id = v.items.map Item.bytes := by
  induction pre with
  | nil => exact (queueOf_cons ..).trans (if_pos rfl)
  | cons w rest ih =>
    obtain ⟨other,later⟩ := forall_mem_cons.mp others
    exact (queueOf_cons ..).trans ((if_neg other).trans (ih later))

theorem queueOf_replace {pre post : List View} {v : View} (items : List Item)
    (others : ∀ w ∈ pre, w.topic_id ≠ v.topic_id) : queueOf (pre ++ { v with items := items } :: post) =
      update (queueOf (pre ++ v :: post)) v.topic_id (items.map Item.bytes) := by
  funext topic_id
  by_cases same : topic_id = v.topic_id
  · subst same
    rw [Function.update_self]
    exact @queueOf_found pre post { v with items := items } others
  · rw [update_of_ne same]
    clear others
    induction pre with
    | nil => rw [nil_append,nil_append,queueOf_cons,queueOf_cons,if_neg (Ne.symm same),if_neg (Ne.symm same)]
    | cons w rest ih => rw [List.cons_append,List.cons_append,queueOf_cons,queueOf_cons,ih]

/-- A topic is found at its place, or there is none. -/
theorem find_views (views : List View) (topic_id : TopicId) :
    (addressOf views topic_id = 0 ∧ queueOf views topic_id = [] ∧ topic_id ∉ views.map View.topic_id) ∨
    ∃ pre v post, views = pre ++ v :: post ∧ v.topic_id = topic_id ∧ (∀ w ∈ pre, w.topic_id ≠ v.topic_id) ∧
      addressOf views topic_id = v.address := by
  cases found : views.find? (fun v => v.topic_id = topic_id) with
  | none =>
    left
    rw [addressOf,queueOf,found]
    refine ⟨rfl,rfl,?_⟩
    intro member
    obtain ⟨v,v_member,same⟩ := mem_map.mp member
    exact List.find?_eq_none.mp found v v_member (by simpa using same)
  | some v =>
    right
    obtain ⟨same,pre,post,split,others⟩ := List.find?_eq_some_iff_append.mp found
    have id : v.topic_id = topic_id := by simpa using same
    refine ⟨pre,v,post,split,id,?_,by rw [addressOf,found]⟩
    intro w member
    have other := others w member
    rw [id]
    simpa using other

theorem create_topic_represents {views : List View} (rep : Represents k views) {topic_id : TopicId} {address : Nat}
    (nonzero : address ≠ 0) (unused : address ∉ views.map View.address) (new : topic_id ∉ views.map View.topic_id) :
    Represents (create_topic k topic_id address) (⟨address,topic_id,[]⟩ :: views) := by
  have same : SameViews k (create_topic k topic_id address) views := by
    intro v member
    have other : v.address ≠ address := fun here => unused (here ▸ mem_map_of_mem member)
    exact ⟨if_neg other,fun i _ => ⟨rfl,fun _ => rfl⟩⟩
  refine ⟨rfl,?_,⟨nonzero,?_,trivial,listed_frame rep.listed same⟩,nodup_cons.mpr ⟨unused,rep.topics⟩,
    nodup_cons.mpr ⟨new,rep.ids⟩,rep.entries,rep.data⟩
  · rw [List.length_cons,← rep.made]
    rfl
  · rw [← rep.start]
    exact if_pos rfl

/-- Sending never faults and puts the message behind those of its topic. -/
theorem message_send_represents {views : List View} (rep : Represents k views) {blocks : Blocks} (fresh : Fresh k blocks)
    (topic_id : TopicId) (data : List UInt8) : ∃ k' views', message_send k blocks topic_id data = some k' ∧
      Represents k' views' ∧
      queueOf views' = update (queueOf views) topic_id (queueOf views topic_id ++ [data]) := by
  obtain ⟨new_topic,new_entry,new_data⟩ := represents_fresh rep fresh
  rw [message_send,find_or_create_topic,find_topic_represents rep]
  rcases find_views views topic_id with ⟨address,none_,new⟩ | ⟨pre,v,post,rfl,rfl,others,address⟩
  · rw [address]
    have created := create_topic_represents rep fresh.topic.1 new_topic new
    obtain ⟨k',done,rep'⟩ := @append_entry_represents _ [] views ⟨blocks.topic,topic_id,[]⟩ created data blocks
      ⟨fresh.entry.1,new_entry⟩ ⟨fresh.data.1,new_data⟩
    refine ⟨k',_,done,rep',?_⟩
    rw [@queueOf_replace [] views ⟨blocks.topic,topic_id,[]⟩ _ (by simp),none_]
    funext id
    by_cases same : id = topic_id
    · subst same
      simp
    · rw [update_of_ne same,update_of_ne same,nil_append,queueOf_cons,if_neg (Ne.symm same)]
  · have nonzero := (listed_mem rep.listed v (by simp)).1
    rw [address]
    dsimp only
    rw [if_neg nonzero]
    obtain ⟨k',done,rep'⟩ := append_entry_represents rep data ⟨fresh.entry.1,new_entry⟩ ⟨fresh.data.1,new_data⟩
    refine ⟨k',_,done,rep',?_⟩
    rw [queueOf_replace _ others,queueOf_found others,List.map_append]
    rfl

theorem free_entry_entry (entry data a : Nat) : (free_entry k entry data).entry_at a =
    if a = entry then none else k.entry_at a := by
  rw [free_entry]
  split <;> rfl

theorem free_entry_data (entry data a : Nat) : (free_entry k entry data).data_at a =
    if data ≠ 0 ∧ a = data then none else k.data_at a := by
  rw [free_entry]
  split
  · simp [setEntry, *]
  · simp [setEntry,setData, *]

theorem free_entry_topics (entry data : Nat) : (free_entry k entry data).topic_at = k.topic_at ∧
    (free_entry k entry data).topics = k.topics ∧ (free_entry k entry data).made = k.made := by
  rw [free_entry]
  split <;> exact ⟨rfl,rfl,rfl⟩

/-- A queue loses its first entry. -/
def shrink (k : Kernel) (v : View) (i : Item) (rest : List Item) (next : Nat) : Kernel :=
  free_entry (setTopic k v.address {
    topic_id := v.topic_id, head := firstItem rest
    tail := if firstItem rest = 0 then 0 else lastItem v.items, next := next }) i.address i.data

theorem shrunk_represents {v : View} {rest : List Item} {next : Nat}
    (rep : Represents k (pre ++ v :: post)) (items : v.items = i :: rest) (topic : k.topic_at v.address = some {
      topic_id := v.topic_id, head := firstItem v.items, tail := lastItem v.items, next := next }) :
    Represents (shrink k v i rest next) (pre ++ { v with items := rest } :: post) := by
  have in_views : v ∈ pre ++ v :: post := by simp
  have linked := (listed_mem rep.listed v in_views).2.2
  have i_member : i ∈ v.items := by simp [items]
  have apart := represents_apart rep
  obtain ⟨distinct,data_distinct⟩ := represents_items rep
  have block := (linked_mem linked i i_member).2.2
  -- a data block that is freed belongs to the entry alone
  have freed : i.data ≠ 0 → i.bytes.length ≠ 0 := by
    intro nonzero empty
    rw [if_pos empty] at block
    exact nonzero block
  have others : ∀ w ∈ pre ++ post, SameViews k (shrink k v i rest next) [w] := by
    intro w member
    obtain ⟨address,item_apart,data_apart⟩ := apart w member
    rw [SameViews,List.forall_mem_singleton,shrink,(free_entry_topics _ _).1]
    refine ⟨if_neg address,?_⟩
    intro j j_member
    rw [free_entry_entry,free_entry_data,if_neg (item_apart j j_member i i_member)]
    refine ⟨rfl,fun some_ => if_neg ?_⟩
    rintro ⟨nonzero,same⟩
    exact data_apart j j_member some_ i i_member (freed nonzero) same
  rw [items,map_cons,nodup_cons] at distinct
  have rest_linked : Linked k rest := by
    rw [items] at linked
    exact linked.2.2.2
  have shrunk : Linked (shrink k v i rest next) rest := by
    refine linked_frame rest_linked ?_
    intro j j_member
    have other : j.address ≠ i.address := fun same => distinct.1 (same ▸ mem_map_of_mem j_member)
    rw [shrink,free_entry_entry,free_entry_data,if_neg other]
    refine ⟨rfl,fun some_ => if_neg ?_⟩
    rintro ⟨nonzero,same⟩
    have i_some : decide (i.bytes.length ≠ 0) = true := by simpa using freed nonzero
    rw [items,List.filter_cons,if_pos i_some,map_cons,nodup_cons] at data_distinct
    exact data_distinct.1 (same ▸ mem_map_of_mem (mem_filter.mpr ⟨j_member,by simpa using some_⟩))
  have tail : (if firstItem rest = 0 then 0 else lastItem v.items) = lastItem rest := by
    rw [items]
    cases rest with
    | nil => rfl
    | cons j rest => exact if_neg rest_linked.1
  constructor
  · rw [shrink,(free_entry_topics _ _).2.1]
    refine rep.start.trans ?_
    cases pre <;> rfl
  · rw [shrink,(free_entry_topics _ _).2.2]
    refine rep.made.trans ?_
    simp
  · refine listed_replace rep.listed (fun w member => ?_) (fun w member => ?_) ?_ shrunk
    · exact others w (by simp [member]) w mem_cons_self
    · exact others w (by simp [member]) w mem_cons_self
    · intro next' found
      obtain rfl : next = next' := by
        rw [topic] at found
        simpa using found
      rw [shrink,(free_entry_topics _ _).1,← tail]
      exact if_pos rfl
  · simpa using rep.topics
  · simpa using rep.ids
  · refine List.Nodup.sublist ?_ rep.entries
    have inner : (({ v with items := rest } : View).items.map Item.address).Sublist (v.items.map Item.address) := by
      rw [items]
      exact List.sublist_cons_self _ _
    rw [entries,entries,flatMap_append,flatMap_append,flatMap_cons,flatMap_cons]
    exact (List.Sublist.refl _).append (inner.append (List.Sublist.refl _))
  · refine List.Nodup.sublist ?_ rep.data
    have inner : ((({ v with items := rest } : View).items.filter fun i => i.bytes.length ≠ 0).map Item.data).Sublist
        ((v.items.filter fun i => i.bytes.length ≠ 0).map Item.data) := by
      rw [items]
      exact ((List.sublist_cons_self i rest).filter _).map _
    rw [dataBlocks,dataBlocks,flatMap_append,flatMap_append,flatMap_cons,flatMap_cons]
    exact (List.Sublist.refl _).append (inner.append (List.Sublist.refl _))

/-- Receiving never faults; it takes the oldest message of the topic. -/
theorem message_recv_represents {views : List View} (rep : Represents k views) (topic_id : TopicId) (buffer_size : Nat) :
    ∃ k' bytes views', message_recv k topic_id buffer_size = some (k',bytes) ∧ Represents k' views' ∧
      ((queueOf views topic_id = [] ∧ bytes = [] ∧ views' = views) ∨
      ∃ oldest rest, queueOf views topic_id = oldest :: rest ∧ bytes = oldest.take buffer_size ∧
        queueOf views' = update (queueOf views) topic_id rest) := by
  rw [message_recv,find_topic_represents rep]
  rcases find_views views topic_id with ⟨address,none_,-⟩ | ⟨pre,v,post,rfl,rfl,others,address⟩
  · rw [address]
    exact ⟨k,[],views,rfl,rep,.inl ⟨none_,rfl,rfl⟩⟩
  · obtain ⟨nonzero,⟨next,topic⟩,linked⟩ := listed_mem rep.listed v (by simp)
    rw [address]
    dsimp only
    rw [if_neg nonzero,topic,queueOf_found others]
    cases items : v.items with
    | nil => exact ⟨k,[],_,rfl,rep,.inl ⟨rfl,rfl,rfl⟩⟩
    | cons i rest =>
      have linked' := linked
      rw [items] at linked'
      obtain ⟨i_nonzero,entry,block,-⟩ := linked'
      have first : firstItem (i :: rest) = i.address := rfl
      have shrunk := shrunk_represents rep items topic
      rw [← items]
      dsimp only
      rw [items,first,if_neg i_nonzero,entry]
      have least : (if i.bytes.length < buffer_size then i.bytes.length else buffer_size) = min i.bytes.length buffer_size := by
        rw [Nat.min_def]
        split <;> split <;> omega
      have bytes : read_data k i.data (if i.bytes.length < buffer_size then i.bytes.length else buffer_size) =
          some (i.bytes.take buffer_size) := by
        rw [least,read_data]
        by_cases none_ : min i.bytes.length buffer_size = 0
        · rw [if_pos none_]
          congr 1
          symm
          rw [List.take_eq_nil_iff]
          rcases Nat.min_eq_zero_iff.mp none_ with empty | empty
          · exact .inr (List.eq_nil_of_length_eq_zero empty)
          · exact .inl empty
        · have some_ : i.bytes.length ≠ 0 := fun empty => none_ (by rw [empty,Nat.zero_min])
          rw [if_neg some_] at block
          rw [if_neg none_,block.2]
          dsimp only
          rw [if_pos (Nat.min_le_left _ _),Nat.min_comm,← List.take_take,List.take_length]
      dsimp only
      rw [bytes]
      rw [shrink,items] at shrunk
      exact ⟨_,_,_,rfl,shrunk,.inr ⟨_,_,rfl,rfl,queueOf_replace _ others⟩⟩

end

/-- A step is what the queues do. -/
theorem step_follows {k k' : Kernel} {a : Action} {views : List View} {q : Queues} (rep : Represents k views)
    (same : q.waiting = queueOf views) (step : messages.step k a k') :
    ∃ q' views', Follows q [a] q' ∧ Represents k' views' ∧ q'.waiting = queueOf views' := by
  cases a with
  | send topic_id data blocks =>
    obtain ⟨fresh,done⟩ := step
    obtain ⟨k'',views',sent,rep',queues⟩ := message_send_represents rep fresh topic_id data
    obtain rfl := Option.some.inj (sent.symm.trans done)
    refine ⟨q.send topic_id data,views',.send (.done _),rep',?_⟩
    rw [queues,Queues.send,same]
  | recv topic_id buffer_size bytes =>
    obtain ⟨k'',bytes',views',received,rep',queues⟩ := message_recv_represents rep topic_id buffer_size
    obtain ⟨rfl,rfl⟩ := Prod.mk.inj (Option.some.inj (received.symm.trans step))
    refine ⟨(q.recv topic_id buffer_size).1,views',.recv ?_ (.done _),rep',?_⟩
    · rw [Queues.recv,same]
      rcases queues with ⟨none_,rfl,-⟩ | ⟨oldest,rest,waiting,rfl,-⟩
      · rw [none_]
      · rw [waiting]
    · rw [Queues.recv,same]
      rcases queues with ⟨none_,-,rfl⟩ | ⟨oldest,rest,waiting,-,updated⟩
      · rw [none_]
        exact same
      · rw [waiting,updated]

theorem run_follows {as : List Action} {s k : Kernel} (run : Run messages as s k) {views : List View} {q : Queues}
    (rep : Represents s views) (same : q.waiting = queueOf views) :
    ∃ q' views', Follows q as q' ∧ Represents k views' ∧ q'.waiting = queueOf views' := by
  induction run generalizing q views with
  | done s => exact ⟨q,views,.done q,rep,same⟩
  | step first rest ih =>
    obtain ⟨q₁,views₁,here,rep₁,same₁⟩ := step_follows rep same first
    obtain ⟨q',views',later,rep',same'⟩ := ih rep₁ same₁
    refine ⟨q',views',?_,rep',same'⟩
    cases here with
    | send done =>
      cases done
      exact .send later
    | recv returned done =>
      cases done
      exact .recv returned later

/-- Along every run the topics are independent first-in first-out queues, whose lists are
    well formed in every state, and no call ever faults. -/
theorem messages_refine {as : List Action} {s k : Kernel} (start : messages.start s) (run : Run messages as s k) :
    ∃ q views, Follows .empty as q ∧ (∀ topic_id, sent topic_id as = q.received topic_id ++ q.waiting topic_id) ∧
      Represents k views ∧ q.waiting = queueOf views ∧
      (∀ topic_id data blocks, Fresh k blocks → ∃ k', messages.step k (.send topic_id data blocks) k') ∧
      ∀ topic_id buffer_size, ∃ bytes k', messages.step k (.recv topic_id buffer_size bytes) k' := by
  have empty : Represents s [] := ⟨start.1,start.2,trivial,.nil,.nil,.nil,.nil⟩
  obtain ⟨q,views,follows,rep,same⟩ := run_follows (q := .empty) run empty rfl
  refine ⟨q,views,follows,fun topic_id => ?_,rep,same,?_,?_⟩
  · exact follows_conserves follows topic_id
  · intro topic_id data blocks fresh
    obtain ⟨k',views',sent,-⟩ := message_send_represents rep fresh topic_id data
    exact ⟨k',fresh,sent⟩
  · intro topic_id buffer_size
    obtain ⟨k',bytes,views',received,-⟩ := message_recv_represents rep topic_id buffer_size
    exact ⟨bytes,k',received⟩

def no_topics : Kernel := ⟨0,fun _ => none,fun _ => none,fun _ => none,0⟩

def two_messages : List Action := [.send 3 [1,2,3] ⟨16,32,48⟩,.send 3 [4] ⟨64,80,96⟩,.recv 3 2 [1,2]]

theorem messages_refine_two : ∃ k q views, Run messages two_messages no_topics k ∧ Follows .empty two_messages q ∧
    q.waiting 3 = [[4]] ∧ Represents k views := by
  have run : Run messages two_messages no_topics _ :=
    .step ⟨⟨⟨by decide,rfl⟩,⟨by decide,rfl⟩,⟨by decide,rfl⟩⟩,rfl⟩
      (.step ⟨⟨⟨by decide,rfl⟩,⟨by decide,rfl⟩,⟨by decide,rfl⟩⟩,rfl⟩ (.step rfl (.done _)))
  obtain ⟨q,views,follows,conserved,rep,-⟩ := messages_refine ⟨rfl,rfl⟩ run
  refine ⟨_,q,views,run,follows,?_,rep⟩
  cases follows with
  | send rest =>
    cases rest with
    | send rest =>
      cases rest with
      | recv returned rest =>
        cases rest
        rfl

end MicroOS.MessageQueues

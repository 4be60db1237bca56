import MicroOS.Runs

/-!
Message topics: the linked list of topics and the linked queue of entries of each, as
`message_send` and `message_recv` change them. The blocks that `kmalloc` handed out are
kept by type, since allocations do not overlap; reading through an address that is no
such block is a fault.
-/
namespace MicroOS.Messages
open Runs

abbrev TopicId := BitVec 32

structure Entry where
  data : Nat
  size : Nat
  next : Nat

structure Topic where
  topic_id : TopicId
  head : Nat
  tail : Nat
  next : Nat

/-- The static pointer `topics` and the blocks on the heap; 0 is NULL. `made` counts the
    topics, which are never freed. -/
structure Kernel where
  topics : Nat
  topic_at : Nat → Option Topic
  entry_at : Nat → Option Entry
  data_at : Nat → Option (List UInt8)
  made : Nat

/-- What the three calls of `kmalloc` in a `message_send` return. -/
structure Blocks where
  topic : Nat
  entry : Nat
  data : Nat

def setTopic (k : Kernel) (address : Nat) (topic : Topic) : Kernel :=
  { k with topic_at := fun a => if a = address then some topic else k.topic_at a }

def setEntry (k : Kernel) (address : Nat) (entry : Option Entry) : Kernel :=
  { k with entry_at := fun a => if a = address then entry else k.entry_at a }

def setData (k : Kernel) (address : Nat) (data : Option (List UInt8)) : Kernel :=
  { k with data_at := fun a => if a = address then data else k.data_at a }

/-- The loop of `find_topic`; `none` when it reads outside of a topic or does not end. -/
def find_from (k : Kernel) (topic_id : TopicId) : Nat → Nat → Option Nat
  | 0, _ => none
  | fuel + 1, topic =>
    if topic = 0 then some 0
    else
      match k.topic_at topic with
      | none => none
      | some t => if t.topic_id = topic_id then some topic else find_from k topic_id fuel t.next

/-- No more topics are visited than there are. -/
def find_topic (k : Kernel) (topic_id : TopicId) : Option Nat := find_from k topic_id (k.made + 1) k.topics

def create_topic (k : Kernel) (topic_id : TopicId) (address : Nat) : Kernel :=
  { setTopic k address { topic_id := topic_id, head := 0, tail := 0, next := k.topics } with
    topics := address
    made := k.made + 1 }

def find_or_create_topic (k : Kernel) (topic_id : TopicId) (address : Nat) : Option (Kernel × Nat) :=
  match find_topic k topic_id with
  | none => none
  | some topic => if topic = 0 then some (create_topic k topic_id address,address) else some (k,topic)

/-- `kmalloc(0)` is NULL. -/
def data_block (data : List UInt8) (address : Nat) : Nat := if data.length = 0 then 0 else address

/-- The new entry and its copy of the data. -/
def make_entry (k : Kernel) (data : List UInt8) (blocks : Blocks) : Kernel :=
  let k := if data.length = 0 then k else setData k blocks.data (some data)
  setEntry k blocks.entry (some { data := data_block data blocks.data, size := data.length, next := 0 })

/-- Hangs an entry behind the last one of a topic. -/
def append_entry (k : Kernel) (topic entry : Nat) : Option Kernel :=
  match k.topic_at topic with
  | none => none
  | some t =>
    if t.tail ≠ 0 then
      match k.entry_at t.tail with
      | none => none
      | some last => some (setTopic (setEntry k t.tail (some { last with next := entry })) topic { t with tail := entry })
    else some (setTopic k topic { t with head := entry, tail := entry })

def message_send (k : Kernel) (blocks : Blocks) (topic_id : TopicId) (data : List UInt8) : Option Kernel :=
  match find_or_create_topic k topic_id blocks.topic with
  | none => none
  | some (k,topic) => append_entry (make_entry k data blocks) topic blocks.entry

/-- `memcpy` from a block; no byte is read of NULL when there are none to copy. -/
def read_data (k : Kernel) (data size : Nat) : Option (List UInt8) :=
  if size = 0 then some []
  else
    match k.data_at data with
    | none => none
    | some bytes => if size ≤ bytes.length then some (bytes.take size) else none

/-- `kfree` of the entry's data and of the entry. -/
def free_entry (k : Kernel) (entry data : Nat) : Kernel :=
  setEntry (if data = 0 then k else setData k data none) entry none

/-- The bytes in the receiver's buffer; their number is the result. -/
def message_recv (k : Kernel) (topic_id : TopicId) (buffer_size : Nat) : Option (Kernel × List UInt8) :=
  match find_topic k topic_id with
  | none => none
  | some topic =>
    if topic = 0 then some (k,[])
    else
      match k.topic_at topic with
      | none => none
      | some t =>
        if t.head = 0 then some (k,[])
        else
          match k.entry_at t.head with
          | none => none
          | some entry =>
            match read_data k entry.data (if entry.size < buffer_size then entry.size else buffer_size) with
            | none => none
            | some bytes =>
              some (free_entry (setTopic k topic { t with
                head := entry.next
                tail := if entry.next = 0 then 0 else t.tail }) t.head entry.data,bytes)

/-- A call, with the blocks or the bytes it got. -/
inductive Action where
  | send (topic_id : TopicId) (data : List UInt8) (blocks : Blocks)
  | recv (topic_id : TopicId) (buffer_size : Nat) (bytes : List UInt8)

/-- `kmalloc` returns blocks that are not in use. -/
structure Fresh (k : Kernel) (blocks : Blocks) : Prop where
  topic : blocks.topic ≠ 0 ∧ k.topic_at blocks.topic = none
  entry : blocks.entry ≠ 0 ∧ k.entry_at blocks.entry = none
  data : blocks.data ≠ 0 ∧ k.data_at blocks.data = none

def messages : System Kernel Action where
  start k := k.topics = 0 ∧ k.made = 0
  step k
    | .send topic_id data blocks, k' => Fresh k blocks ∧ message_send k blocks topic_id data = some k'
    | .recv topic_id buffer_size bytes, k' => message_recv k topic_id buffer_size = some (k',bytes)

end MicroOS.Messages

import MicroOS.Memory
import MicroOS.Runs

/-!
The resolver. A response is a buffer of bytes with a size, and names in it can point to
other places in it. `dns_parse_packet` may need another name, which `dns_resolve_A`
resolves from the start, or ask another server for the same name, one level deeper.
-/
namespace MicroOS.Dns
open Memory Runs

def DNS_MAX_NAME : Nat := 255
def DNS_MAX_JUMPS : Nat := 10
def DNS_MAX_DELEGATION_DEPTH : Nat := 5
def DNS_MAX_NS : Nat := 4

/-- A domain without its NUL, and an address; 0 is none. -/
abbrev Name := List UInt8
abbrev Ip := Nat

/-- The array `domain` and what lies behind it. -/
structure CacheEntry where
  domain : Bytes
  ip : Ip

abbrev Cache := List CacheEntry

/-- `strcmp(entry->domain,domain) == 0`, from byte `i` on. -/
def spells (bytes : Bytes) : Nat → Name → Bool
  | i,[] => bytes i = 0
  | i,c :: rest => bytes i = c && spells bytes (i + 1) rest

def dns_cache_lookup (cache : Cache) (domain : Name) : Ip :=
  ((cache.find? fun e => spells e.domain 0 domain).map CacheEntry.ip).getD 0

/-- The first entry of the domain gets the address. -/
def replace (domain : Name) (ip : Ip) : Cache → Cache
  | [] => []
  | e :: rest => if spells e.domain 0 domain then { e with ip := ip } :: rest else e :: replace domain ip rest

/-- `strcpy` into an entry that held `leftover`: a terminator is stored for the empty domain only, and
    what is copied from behind that one is part of `leftover`. -/
def strcpy (leftover : Bytes) (domain : Name) : Bytes :=
  fun i => if domain = [] ∧ i = 0 then 0 else domain.getD i (leftover i)

/-- A new entry is built on the stack, where `leftover` stood. -/
def dns_cache_add (leftover : Bytes) (cache : Cache) (domain : Name) (ip : Ip) : Cache :=
  if dns_cache_lookup cache domain ≠ 0 then replace domain ip cache else cache ++ [⟨strcpy leftover domain,ip⟩]

/-- The buffer with what lies behind it, and what `sync_recv` returned. -/
structure Response where
  packet : Bytes
  size : Int

def bswap16_at (m : Bytes) (o : Nat) : Nat := (m o).toNat * 256 + (m (o + 1)).toNat

def sizeof_dnshdr : Nat := 12
def sizeof_dns_question : Nat := 4
def sizeof_dns_resource : Nat := 10

section
variable (packet : Bytes) (packet_end : Int)

def dns_skip_name (reader : Nat) : Nat :=
  if reader < packet_end ∧ packet reader ≠ 0 then
    if packet reader &&& 0xC0 = 0xC0 then 2
    else (packet reader).toNat + 1 + dns_skip_name (reader + (packet reader).toNat + 1)
  else 1
termination_by (packet_end - reader).toNat

/-- The bytes of a label, with what is left of the name or NULL, and `bytes_consumed`. -/
def copy_label (jumped : Bool) : Nat → Nat → Name → Nat → Option Name × Nat
  | 0,_,name,consumed => (some name,consumed)
  | len + 1,reader,name,consumed =>
    if DNS_MAX_NAME ≤ name.length then (none,consumed)
    else copy_label jumped len (reader + 1) (name ++ [packet reader]) (if jumped then consumed else consumed + 1)

/-- What `strdup` copies, up to the first NUL. Where that is nothing, its `strcpy` does not stop at the NUL:
    such a name is a fault in `sections`. -/
def strdup (name : Name) : Name := name.takeWhile (· ≠ 0)

/-- The loop over the labels; it returns the name or NULL, and `bytes_consumed`. -/
def read_labels (reader : Nat) (name : Name) (jumped : Bool) (jump_count consumed : Nat) : Option Name × Nat :=
  if reader < packet_end ∧ packet reader ≠ 0 then
    if packet reader &&& 0xC0 = 0xC0 then
      if packet_end ≤ reader + 1 then (none,consumed)
      else if DNS_MAX_JUMPS < jump_count + 1 then (none,consumed)
      else read_labels (((packet reader &&& 0x3F).toNat <<< 8) ||| (packet (reader + 1)).toNat) name true (jump_count + 1)
        (if consumed = 0 then 2 else consumed)
    else
      let len := (packet reader).toNat
      let consumed := if jumped then consumed else consumed + 1
      if 63 < len ∨ packet_end < reader + 1 + len then (none,consumed)
      else
        match copy_label packet jumped len (reader + 1) name consumed with
        | (none,consumed) => (none,consumed)
        | (some name,consumed) => read_labels (reader + 1 + len) (name ++ [46]) jumped jump_count consumed
  else (some (strdup name.dropLast),if jumped then consumed else consumed + 1)
termination_by (DNS_MAX_JUMPS - jump_count,(packet_end - reader).toNat)
decreasing_by
  all_goals simp_wf
  · omega
  · omega

def dns_read_name (reader : Nat) : Option Name × Nat := read_labels packet packet_end reader [] false 0 0

/-- A `dns_resource_t`: type, class and length of the data behind it. -/
structure Resource where
  type : Nat
  class_ : Nat
  data_len : Nat

def dns_resource (reader : Nat) : Resource :=
  ⟨bswap16_at packet reader,bswap16_at packet (reader + 2),bswap16_at packet (reader + 8)⟩

def questions : Nat → Nat → Nat
  | 0,reader => reader
  | n + 1,reader => questions n (reader + dns_skip_name packet packet_end reader + sizeof_dns_question)

/-- The first answer that decides: an address, or the name of another domain. -/
inductive Answer
  | address (ip : Ip)
  | cname (name : Option Name)
  | none (reader : Nat)

def answers : Nat → Nat → Answer
  | 0,reader => .none reader
  | n + 1,reader =>
    let reader := reader + dns_skip_name packet packet_end reader
    let res := dns_resource packet reader
    let reader := reader + sizeof_dns_resource
    if res.type = 1 ∧ res.class_ = 1 ∧ res.data_len = 4 then .address (load32 packet reader)
    else if res.type = 5 ∧ res.class_ = 1 then .cname (dns_read_name packet packet_end reader).1
    else answers n (reader + res.data_len)

/-- At most four name servers are kept. -/
def authorities : Nat → Nat → List Name → List Name × Nat
  | 0,reader,ns_names => (ns_names,reader)
  | n + 1,reader,ns_names =>
    let reader := reader + dns_skip_name packet packet_end reader
    let res := dns_resource packet reader
    let reader := reader + sizeof_dns_resource
    let ns_names :=
      if res.type = 2 ∧ res.class_ = 1 ∧ ns_names.length < DNS_MAX_NS then
        ns_names ++ (dns_read_name packet packet_end reader).1.toList
      else ns_names
    authorities n (reader + res.data_len) ns_names

/-- The addresses that come along go to the cache; without a name for one of them the
    cache is searched for NULL. `leftover n` is on the stack where the entry for the last but `n` is built. -/
def additionals (leftover : Nat → Bytes) : Nat → Nat → Cache → Option Cache
  | 0,_,cache => some cache
  | n + 1,reader,cache =>
    let name := dns_read_name packet packet_end reader
    let reader := reader + name.2
    let res := dns_resource packet reader
    let reader := reader + sizeof_dns_resource
    if name.1 = some [] then none
    else if res.type = 1 ∧ res.class_ = 1 ∧ res.data_len = 4 then
      match name.1 with
      | none => none
      | some name =>
        additionals leftover n (reader + res.data_len) (dns_cache_add (leftover n) cache name (load32 packet reader))
    else additionals leftover n (reader + res.data_len) cache

end

/-- What a packet says: an address or 0, another name for the domain, name servers for it, or
    nothing that can be used. -/
inductive Reply
  | result (ip : Ip)
  | renamed (name : Name)
  | delegated (cache : Cache) (ns_names : List Name)
  | fault

/-- The sections of a packet in their order. -/
def sections (leftover : Nat → Bytes) (r : Response) (cache : Cache) : Reply :=
  let reader := questions r.packet r.size (bswap16_at r.packet 4) sizeof_dnshdr
  match answers r.packet r.size (bswap16_at r.packet 6) reader with
  | .address ip => .result ip
  | .cname none => .result 0
  | .cname (some name) => if name = [] then .fault else .renamed name
  | .none reader =>
    let authority := authorities r.packet r.size (bswap16_at r.packet 8) reader []
    if [] ∈ authority.1 then .fault
    else
      match additionals r.packet r.size leftover (bswap16_at r.packet 10) authority.2 cache with
      | none => .fault
      | some cache => .delegated cache authority.1

/-- `dns_parse_packet` up to its next query. -/
def dns_parse_packet (leftover : Nat → Bytes) (r : Response) (cache : Cache) (depth : Nat) : Reply :=
  if DNS_MAX_DELEGATION_DEPTH < depth then .result 0 else sections leftover r cache

/-- A call that waits: `dns_resolve_A` for its response, and `dns_parse_packet` for the address of
    another name, for that of a name server, and for what the name server says. -/
inductive Frame
  | resolving (domain : Name)
  | aliasing (domain : Name)
  | delegating (domain : Name) (depth : Nat)
  | asking (domain : Name) (depth : Nat)

inductive Control
  | resolve (domain : Name)
  | receive
  | parse (response : Response) (domain : Name) (depth : Nat)
  | returned (ip : Ip)
  | faulted

/-- The calls that wait, the newest first, and how many queries were sent. -/
structure State where
  cache : Cache
  stack : List Frame
  control : Control
  queries : Nat

/-- A step comes with what is on the stack where entries of the cache are built. -/
inductive Action
  | compute (leftover : Nat → Bytes)
  | response (r : Response)

/-- What is found is kept, except for 0. -/
def keep (leftover : Bytes) (cache : Cache) (domain : Name) (ip : Ip) : Cache :=
  if ip ≠ 0 then dns_cache_add leftover cache domain ip else cache

def compute (leftover : Nat → Bytes) (s : State) : Option State :=
  match s.control with
  | .resolve domain =>
    let cached := dns_cache_lookup s.cache domain
    if cached ≠ 0 then some { s with control := .returned cached }
    else some { s with control := .receive, stack := .resolving domain :: s.stack, queries := s.queries + 1 }
  | .receive => none
  | .parse response domain depth =>
    match dns_parse_packet leftover response s.cache depth with
    | .result ip => some { s with control := .returned ip, cache := keep (leftover 0) s.cache domain ip }
    | .renamed name => some { s with control := .resolve name, stack := .aliasing domain :: s.stack }
    | .delegated cache [] => some { s with control := .returned 0, cache := cache }
    | .delegated cache (ns :: _) =>
      some { s with control := .resolve ns, cache := cache, stack := .delegating domain depth :: s.stack }
    | .fault => some { s with control := .faulted }
  | .returned ip =>
    match s.stack with
    | [] => none
    | .resolving _ :: stack => some { s with stack := stack }
    | .aliasing domain :: stack | .asking domain _ :: stack =>
      some { s with stack := stack, cache := keep (leftover 0) s.cache domain ip }
    | .delegating domain depth :: stack =>
      if ip ≠ 0 then some { s with control := .receive, stack := .asking domain depth :: stack, queries := s.queries + 1 }
      else some { s with stack := stack }
  | .faulted => none

/-- Only `dns_resolve_A` looks at the size. -/
def respond (s : State) (r : Response) : Option State :=
  match s.control,s.stack with
  | .receive,.resolving domain :: stack =>
    if r.size ≤ 0 then some { s with control := .returned 0, stack := stack } else some { s with control := .parse r domain 0 }
  | .receive,.asking domain depth :: _ => some { s with control := .parse r domain (depth + 1) }
  | _,_ => none

def next (s : State) : Action → Option State
  | .compute leftover => compute leftover s
  | .response r => respond s r

/-- A call of `dns_resolve_A`, and whatever is answered. -/
def dns_system : System State Action where
  start s := ∃ cache domain, s = ⟨cache,[],.resolve domain,0⟩
  step s a t := next s a = some t

def parses : Frame → Bool
  | .resolving _ => false
  | .aliasing _ | .delegating _ _ | .asking _ _ => true

/-- The activations of `dns_parse_packet`. -/
def activations (s : State) : Nat :=
  s.stack.countP parses + match s.control with
    | .parse _ _ _ => 1
    | _ => 0

/-- The first query, and one for every level. -/
def most_queries : Nat := DNS_MAX_DELEGATION_DEPTH + 2

/-- The call has returned. -/
def Finished (s : State) : Prop := ∃ ip, s.control = .returned ip ∧ s.stack = []

/-- A packet that names another domain or a name server names one whose address the cache then gives. -/
def Known (leftover : Nat → Bytes) (cache : Cache) (r : Response) : Prop :=
  match sections leftover r cache with
  | .result _ | .delegated _ [] => True
  | .renamed name => dns_cache_lookup cache name ≠ 0
  | .delegated cache (ns :: _) => dns_cache_lookup cache ns ≠ 0
  | .fault => False

/-- The packets that are read, those within the delegation depth, name only what is known. -/
def Careful (s : State) : Action → Prop
  | .response _ => True
  | .compute leftover =>
    match s.control with
    | .parse r _ depth => depth ≤ DNS_MAX_DELEGATION_DEPTH → Known leftover s.cache r
    | _ => True

end MicroOS.Dns

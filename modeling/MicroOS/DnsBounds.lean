import MicroOS.Dns

/-!
Which bytes `dns_parse_packet` reads of a packet, which entries of `name` and
`ns_names` it stores to, and the names it hands to `strdup` and to the cache: the
`strcpy` of both does not stop at the terminator of an empty name.
-/
namespace MicroOS.DnsBounds
open Memory Dns

/-- A byte of the packet that is read, an entry of `name` or `ns_names` that is
    stored to, a name that `strdup` copies, and the name an address goes to the cache with. -/
inductive Touch
  | read (address : Nat)
  | name (index : Nat)
  | ns (index : Nat)
  | duplicate (name : Name)
  | cache (domain : Option Name)

/-- What `strcpy` copies without leaving the text or `entry.domain`. -/
def Copied (name : Name) : Prop := name ≠ [] ∧ name.length ≤ DNS_MAX_NAME + 1

/-- Within the packet, within the arrays, and nothing that `strcpy` runs past; not NULL. -/
def Inside (packet_end : Int) : Touch → Prop
  | .read address => (address : Int) < packet_end
  | .name index => index < DNS_MAX_NAME + 1
  | .ns index => index < DNS_MAX_NS
  | .duplicate name => name ≠ []
  | .cache domain => ∃ name ∈ domain, Copied name

section
variable (packet : Bytes) (packet_end : Int)

def skip_trace (reader : Nat) : List Touch :=
  if reader < packet_end then
    if packet reader = 0 ∨ packet reader &&& 0xC0 = 0xC0 then [.read reader]
    else .read reader :: skip_trace (reader + (packet reader).toNat + 1)
  else []
termination_by (packet_end - reader).toNat

/-- `name[p++] = *reader++`, `len` times. -/
def label_trace : Nat → Nat → Nat → List Touch
  | 0,_,_ => []
  | len + 1,reader,p =>
    if DNS_MAX_NAME ≤ p then [] else .read reader :: .name p :: label_trace len (reader + 1) (p + 1)

/-- The loop of `dns_read_name` with `p` bytes in `name`, and the terminator stored behind it. -/
def name_trace (reader p jump_count : Nat) : List Touch :=
  if reader < packet_end then
    if packet reader = 0 then [.read reader,.name (p - 1)]
    else if packet reader &&& 0xC0 = 0xC0 then
      if packet_end ≤ reader + 1 then [.read reader]
      else if DNS_MAX_JUMPS < jump_count + 1 then [.read reader,.read (reader + 1)]
      else .read reader :: .read (reader + 1) ::
        name_trace (((packet reader &&& 0x3F).toNat <<< 8) ||| (packet (reader + 1)).toNat) p (jump_count + 1)
    else
      let len := (packet reader).toNat
      if 63 < len ∨ packet_end < reader + 1 + len then [.read reader]
      else if DNS_MAX_NAME < p + len then .read reader :: label_trace len (reader + 1) p
      else .read reader :: (label_trace len (reader + 1) p ++
        .name (p + len) :: name_trace (reader + 1 + len) (p + len + 1) jump_count)
  else [.name (p - 1)]
termination_by (DNS_MAX_JUMPS - jump_count,(packet_end - reader).toNat)
decreasing_by
  all_goals simp_wf
  · omega
  · omega

/-- A call of `dns_read_name`, to the `strdup` of what it has read. -/
def read_trace (reader : Nat) : List Touch :=
  name_trace packet packet_end reader 0 0 ++ (dns_read_name packet packet_end reader).1.toList.map .duplicate

/-- `type`, `_class` and `data_len` of a `dns_resource_t`. -/
def header_trace (reader : Nat) : List Touch :=
  [.read reader,.read (reader + 1),.read (reader + 2),.read (reader + 3),.read (reader + 8),.read (reader + 9)]

/-- `memcpy` of four bytes. -/
def address_trace (reader : Nat) : List Touch := [.read reader,.read (reader + 1),.read (reader + 2),.read (reader + 3)]

def questions_trace : Nat → Nat → List Touch
  | 0,_ => []
  | n + 1,reader =>
    skip_trace packet packet_end reader ++
      questions_trace n (reader + dns_skip_name packet packet_end reader + sizeof_dns_question)

def answers_trace : Nat → Nat → List Touch
  | 0,_ => []
  | n + 1,reader =>
    let behind := reader + dns_skip_name packet packet_end reader
    let res := dns_resource packet behind
    skip_trace packet packet_end reader ++ header_trace behind ++
      if res.type = 1 ∧ res.class_ = 1 ∧ res.data_len = 4 then address_trace (behind + sizeof_dns_resource)
      else if res.type = 5 ∧ res.class_ = 1 then read_trace packet packet_end (behind + sizeof_dns_resource)
      else answers_trace n (behind + sizeof_dns_resource + res.data_len)

def authorities_trace : Nat → Nat → Nat → List Touch
  | 0,_,_ => []
  | n + 1,reader,ns_count =>
    let behind := reader + dns_skip_name packet packet_end reader
    let res := dns_resource packet behind
    let data := behind + sizeof_dns_resource
    skip_trace packet packet_end reader ++ header_trace behind ++
      if res.type = 2 ∧ res.class_ = 1 ∧ ns_count < DNS_MAX_NS then
        read_trace packet packet_end data ++
          if (dns_read_name packet packet_end data).1.isSome then
            .ns ns_count :: authorities_trace n (data + res.data_len) (ns_count + 1)
          else authorities_trace n (data + res.data_len) ns_count
      else authorities_trace n (data + res.data_len) ns_count

def additionals_trace : Nat → Nat → List Touch
  | 0,_ => []
  | n + 1,reader =>
    let cname := dns_read_name packet packet_end reader
    let behind := reader + cname.2
    let res := dns_resource packet behind
    let data := behind + sizeof_dns_resource
    read_trace packet packet_end reader ++ header_trace behind ++
      (if res.type = 1 ∧ res.class_ = 1 ∧ res.data_len = 4 then address_trace data ++ [.cache cname.1] else []) ++
      additionals_trace n (data + res.data_len)

/-- Each answer that is looked at has its fixed header in the packet, an address its four bytes, and
    another name for the domain is not empty. -/
def AnswersFit : Nat → Nat → Prop
  | 0,_ => True
  | n + 1,reader =>
    let behind := reader + dns_skip_name packet packet_end reader
    let res := dns_resource packet behind
    ((behind + sizeof_dns_resource : Nat) : Int) ≤ packet_end ∧
      if res.type = 1 ∧ res.class_ = 1 ∧ res.data_len = 4 then ((behind + sizeof_dns_resource + 4 : Nat) : Int) ≤ packet_end
      else if res.type = 5 ∧ res.class_ = 1 then (dns_read_name packet packet_end (behind + sizeof_dns_resource)).1 ≠ some []
      else AnswersFit n (behind + sizeof_dns_resource + res.data_len)

/-- No name server that is kept has an empty name. -/
def AuthoritiesFit : Nat → Nat → Nat → Prop
  | 0,_,_ => True
  | n + 1,reader,ns_count =>
    let behind := reader + dns_skip_name packet packet_end reader
    let res := dns_resource packet behind
    let data := behind + sizeof_dns_resource
    let name := (dns_read_name packet packet_end data).1
    ((data : Nat) : Int) ≤ packet_end ∧
      if res.type = 2 ∧ res.class_ = 1 ∧ ns_count < DNS_MAX_NS then
        name ≠ some [] ∧ AuthoritiesFit n (data + res.data_len) (if name.isSome then ns_count + 1 else ns_count)
      else AuthoritiesFit n (data + res.data_len) ns_count

/-- A name is not empty, and that of an address can be read. -/
def AdditionalsFit : Nat → Nat → Prop
  | 0,_ => True
  | n + 1,reader =>
    let cname := dns_read_name packet packet_end reader
    let behind := reader + cname.2
    let res := dns_resource packet behind
    ((behind + sizeof_dns_resource : Nat) : Int) ≤ packet_end ∧ cname.1 ≠ some [] ∧
      (res.type = 1 ∧ res.class_ = 1 ∧ res.data_len = 4 →
        ((behind + sizeof_dns_resource + 4 : Nat) : Int) ≤ packet_end ∧ cname.1 ≠ none) ∧
      AdditionalsFit n (behind + sizeof_dns_resource + res.data_len)

end

/-- What `dns_parse_packet` touches up to its next query; an address for the domain itself goes to the
    cache, which copies the domain when it has no address for it. -/
def parse_trace (r : Response) (cache : Cache) (domain : Name) (depth : Nat) : List Touch :=
  if DNS_MAX_DELEGATION_DEPTH < depth then [] else
  let asked := questions r.packet r.size (bswap16_at r.packet 4) sizeof_dnshdr
  [.read 4,.read 5] ++ questions_trace r.packet r.size (bswap16_at r.packet 4) sizeof_dnshdr ++
    [.read 6,.read 7] ++ answers_trace r.packet r.size (bswap16_at r.packet 6) asked ++
    match answers r.packet r.size (bswap16_at r.packet 6) asked with
    | .none reader =>
      let authority := authorities r.packet r.size (bswap16_at r.packet 8) reader []
      [.read 8,.read 9] ++ authorities_trace r.packet r.size (bswap16_at r.packet 8) reader 0 ++
        [.read 10,.read 11] ++ additionals_trace r.packet r.size (bswap16_at r.packet 10) authority.2
    | .address ip => if ip ≠ 0 ∧ dns_cache_lookup cache domain = 0 then [.cache (some domain)] else []
    | .cname _ => []

/-- Every touch is inside. -/
def Safe (r : Response) (cache : Cache) (domain : Name) (depth : Nat) : Prop :=
  ∀ t ∈ parse_trace r cache domain depth, Inside r.size t

/-- The header and all records that are looked at are in the packet, no name is empty, and a domain that
    gets an address can be copied. -/
def Fits (r : Response) (cache : Cache) (domain : Name) : Prop :=
  ((sizeof_dnshdr : Nat) : Int) ≤ r.size ∧
    let asked := questions r.packet r.size (bswap16_at r.packet 4) sizeof_dnshdr
    AnswersFit r.packet r.size (bswap16_at r.packet 6) asked ∧
      (∀ ip, answers r.packet r.size (bswap16_at r.packet 6) asked = .address ip → ip ≠ 0 →
        dns_cache_lookup cache domain = 0 → Copied domain) ∧
      ∀ reader, answers r.packet r.size (bswap16_at r.packet 6) asked = .none reader →
        AuthoritiesFit r.packet r.size (bswap16_at r.packet 8) reader 0 ∧
          AdditionalsFit r.packet r.size (bswap16_at r.packet 10)
            (authorities r.packet r.size (bswap16_at r.packet 8) reader []).2

section
variable {packet : Bytes} {packet_end : Int}

def AllInside (packet_end : Int) (touches : List Touch) : Prop := ∀ t ∈ touches, Inside packet_end t

@[simp] theorem allInside_nil : AllInside packet_end [] := by simp [AllInside]

@[simp] theorem allInside_cons (t : Touch) (touches : List Touch) :
    AllInside packet_end (t :: touches) ↔ Inside packet_end t ∧ AllInside packet_end touches := by
  simp [AllInside]

@[simp] theorem allInside_append (first second : List Touch) :
    AllInside packet_end (first ++ second) ↔ AllInside packet_end first ∧ AllInside packet_end second := by
  simp [AllInside,or_imp,forall_and]

theorem label_inside {len reader p : Nat} (inside : ((reader + len : Nat) : Int) ≤ packet_end) :
    AllInside packet_end (label_trace len reader p) := by
  induction len generalizing reader p with
  | zero => simp [label_trace]
  | succ len step =>
    rw [label_trace]
    split
    · simp
    · next room =>
      have rest := @step (reader + 1) (p + 1) (by omega)
      simp only [allInside_cons,Inside]
      exact ⟨by omega,by omega,rest⟩

/-- From a name that is not full, `dns_read_name` stays inside, wherever its pointers lead. -/
theorem name_inside {reader p jump_count : Nat} (small : p ≤ DNS_MAX_NAME + 1) :
    AllInside packet_end (name_trace packet packet_end reader p jump_count) := by
  have last {p : Nat} (small : p ≤ DNS_MAX_NAME + 1) : p - 1 < DNS_MAX_NAME + 1 := by
    unfold DNS_MAX_NAME at small ⊢
    omega
  fun_induction name_trace packet packet_end reader p jump_count with
  | case1 reader p jump_count here zero =>
    simp only [allInside_cons,allInside_nil,Inside]
    exact ⟨here,last small,trivial⟩
  | case2 reader p jump_count here nonzero pointer short => simpa [Inside] using here
  | case3 reader p jump_count here nonzero pointer pair many =>
    simp only [allInside_cons,allInside_nil,Inside]
    exact ⟨here,by omega,trivial⟩
  | case4 reader p jump_count here nonzero pointer pair few step =>
    simp only [allInside_cons,Inside]
    exact ⟨here,by omega,step small⟩
  | case5 reader p jump_count here nonzero plain len long => simpa [Inside] using here
  | case6 reader p jump_count here nonzero plain len short full =>
    simp only [allInside_cons,Inside]
    exact ⟨here,label_inside (by omega)⟩
  | case7 reader p jump_count here nonzero plain len short room step =>
    have positive : 0 < len := by
      rcases Nat.eq_zero_or_pos len with none_there | some_there
      · exact absurd (UInt8.toNat_inj.mp none_there) nonzero
      · exact some_there
    simp only [allInside_cons,allInside_append,Inside]
    exact ⟨here,label_inside (by omega),by omega,step (by omega)⟩
  | case8 reader p jump_count past => simpa [Inside] using last small

theorem duplicate_inside (name : Option Name) :
    AllInside packet_end (name.toList.map .duplicate) ↔ name ≠ some [] := by
  cases name with
  | none => simp
  | some name => simp [Inside]

theorem read_inside (reader : Nat) :
    AllInside packet_end (read_trace packet packet_end reader) ↔ (dns_read_name packet packet_end reader).1 ≠ some [] := by
  rw [read_trace,allInside_append,duplicate_inside]
  exact and_iff_right (name_inside (by decide))

end

/-- A header that announces one answer, and nothing behind it. -/
def cut_off : Response := ⟨fun x => if x = 7 then 1 else 0,12⟩

/-- One additional address whose name is a label of two bytes that begins with a NUL. -/
def silent : Response :=
  ⟨fun i => [0,0,0,0,0,0,0,0,0,0,0,1,2,0,97,0,0,1,0,1,0,0,0,0,0,4,10,0,0,1].getD i 0,30⟩

end MicroOS.DnsBounds

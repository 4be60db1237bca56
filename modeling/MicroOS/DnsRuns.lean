import MicroOS.Dns

/-!
The runs of a call of `dns_resolve_A`. As long as every other name that a packet brings up is
in the cache, the calls that wait are one for the domain and one for each level of
delegation (`Shape`), so the call returns after `most_queries` queries at most
(`dns_bounded`). A domain that is an alias of itself keeps the resolver busy for ever
(`alias_forever`).
-/
namespace MicroOS.Dns
open Memory Runs
open Option (some.inj)

/-- The calls for a domain that was delegated `depth` times. -/
def tower (domain : Name) : Nat → List Frame
  | 0 => [.resolving domain]
  | depth + 1 => .asking domain depth :: tower domain depth

/-- The states of a careful run. -/
inductive Shape (s : State) : Prop
  | begins (domain : Name) (control : s.control = .resolve domain) (stack : s.stack = []) (queries : s.queries = 0)
  | waits (domain : Name) (depth : Nat) (level : depth ≤ DNS_MAX_DELEGATION_DEPTH + 1) (control : s.control = .receive)
      (stack : s.stack = tower domain depth) (queries : s.queries = depth + 1)
  | reads (r : Response) (domain : Name) (depth : Nat) (level : depth ≤ DNS_MAX_DELEGATION_DEPTH + 1)
      (control : s.control = .parse r domain depth) (stack : s.stack = tower domain depth) (queries : s.queries = depth + 1)
  | looks (name domain : Name) (depth : Nat) (frame : Frame) (level : depth ≤ DNS_MAX_DELEGATION_DEPTH)
      (control : s.control = .resolve name) (known : dns_cache_lookup s.cache name ≠ 0)
      (stack : s.stack = frame :: tower domain depth) (top : frame = .aliasing domain ∨ frame = .delegating domain depth)
      (queries : s.queries = depth + 1)
  | found (ip : Ip) (domain : Name) (depth : Nat) (frame : Frame) (level : depth ≤ DNS_MAX_DELEGATION_DEPTH)
      (control : s.control = .returned ip) (stack : s.stack = frame :: tower domain depth)
      (top : frame = .aliasing domain ∨ frame = .delegating domain depth) (queries : s.queries = depth + 1)
  | leaves (ip : Ip) (domain : Name) (depth : Nat) (level : depth ≤ DNS_MAX_DELEGATION_DEPTH + 1)
      (control : s.control = .returned ip) (stack : s.stack = tower domain depth) (queries : s.queries ≤ most_queries)
  | ends (ip : Ip) (control : s.control = .returned ip) (stack : s.stack = []) (queries : s.queries ≤ most_queries)

/-- How many steps are left at most. -/
def left (s : State) : Nat :=
  match s.control,s.stack with
  | .resolve _,[] => 5 * DNS_MAX_DELEGATION_DEPTH + 9
  | .receive,stack => 4 * (DNS_MAX_DELEGATION_DEPTH + 2 - stack.length) + DNS_MAX_DELEGATION_DEPTH + 4
  | .parse _ _ _,stack => 4 * (DNS_MAX_DELEGATION_DEPTH + 2 - stack.length) + DNS_MAX_DELEGATION_DEPTH + 3
  | .resolve _,_ :: stack => 4 * (DNS_MAX_DELEGATION_DEPTH + 2 - stack.length) + DNS_MAX_DELEGATION_DEPTH + 2
  | .returned _,.aliasing _ :: stack | .returned _,.delegating _ _ :: stack =>
    4 * (DNS_MAX_DELEGATION_DEPTH + 2 - stack.length) + DNS_MAX_DELEGATION_DEPTH + 1
  | .returned _,stack => stack.length
  | .faulted,_ => 0

theorem tower_length (domain : Name) (depth : Nat) : (tower domain depth).length = depth + 1 := by
  induction depth with
  | zero => rfl
  | succ depth ih => rw [tower,List.length_cons,ih]

theorem tower_parses (domain : Name) (depth : Nat) : (tower domain depth).countP parses = depth := by
  induction depth with
  | zero => rfl
  | succ depth ih =>
    rw [tower,List.countP_cons_of_pos rfl,ih]

/-- Below the first level a call returns into the level above. -/
theorem left_leaves {s : State} {ip : Ip} {domain : Name} {depth : Nat} (control : s.control = .returned ip)
    (stack : s.stack = tower domain depth) : left s = depth + 1 := by
  rw [← tower_length domain depth,left,control,stack]
  cases depth <;> rfl

section
variable {s : State} {domain : Name} {depth : Nat} {frame : Frame}

theorem left_begins {name : Name} (control : s.control = .resolve name) (stack : s.stack = []) :
    left s = 5 * DNS_MAX_DELEGATION_DEPTH + 9 := by rw [left,control,stack]

theorem left_waits (control : s.control = .receive) (stack : s.stack = tower domain depth) :
    left s = 4 * (DNS_MAX_DELEGATION_DEPTH + 1 - depth) + DNS_MAX_DELEGATION_DEPTH + 4 := by
  rw [left,control,stack]
  dsimp only
  rw [tower_length]
  omega

theorem left_reads {r : Response} (control : s.control = .parse r domain depth) (stack : s.stack = tower domain depth) :
    left s = 4 * (DNS_MAX_DELEGATION_DEPTH + 1 - depth) + DNS_MAX_DELEGATION_DEPTH + 3 := by
  rw [left,control,stack]
  dsimp only
  rw [tower_length]
  omega

theorem left_looks {name : Name} (control : s.control = .resolve name) (stack : s.stack = frame :: tower domain depth) :
    left s = 4 * (DNS_MAX_DELEGATION_DEPTH + 1 - depth) + DNS_MAX_DELEGATION_DEPTH + 2 := by
  rw [left,control,stack]
  dsimp only
  rw [tower_length]
  omega

theorem left_found {ip : Ip} (control : s.control = .returned ip) (stack : s.stack = frame :: tower domain depth)
    (top : frame = .aliasing domain ∨ frame = .delegating domain depth) :
    left s = 4 * (DNS_MAX_DELEGATION_DEPTH + 1 - depth) + DNS_MAX_DELEGATION_DEPTH + 1 := by
  rw [left,control,stack]
  obtain rfl | rfl := top
  · dsimp only
    rw [tower_length]
    omega
  · dsimp only
    rw [tower_length]
    omega

end

variable {s t : State}

/-- A packet that is read leads to an address, or to a name whose address is known. -/
theorem reads_next {r : Response} {domain : Name} {depth : Nat} {leftover : Nat → Bytes}
    (level : depth ≤ DNS_MAX_DELEGATION_DEPTH + 1) (control : s.control = .parse r domain depth)
    (stack : s.stack = tower domain depth) (queries : s.queries = depth + 1) (here : compute leftover s = some t)
    (careful : Careful s (.compute leftover)) : Shape t ∧ left t < left s := by
  have before := left_reads control stack
  have few : s.queries ≤ most_queries := by
    rw [most_queries]
    omega
  -- Behind the last level a packet is not read.
  have read (other : dns_parse_packet leftover r s.cache depth ≠ .result 0) :
      depth ≤ DNS_MAX_DELEGATION_DEPTH ∧ dns_parse_packet leftover r s.cache depth = sections leftover r s.cache := by
    by_cases shallow : depth ≤ DNS_MAX_DELEGATION_DEPTH
    · exact ⟨shallow,if_neg (Nat.not_lt.2 shallow)⟩
    · exact absurd (if_pos (Nat.not_le.1 shallow)) other
  unfold compute at here
  unfold Careful at careful
  rw [control] at here careful
  dsimp only at here careful
  cases reply : dns_parse_packet leftover r s.cache depth with
  | result ip =>
    rw [reply] at here
    obtain rfl := some.inj here
    have after := @left_leaves { s with control := .returned ip, cache := keep (leftover 0) s.cache domain ip } ip domain depth rfl stack
    exact ⟨.leaves ip domain depth level rfl stack few,by omega⟩
  | renamed name =>
    rw [reply] at here
    obtain rfl := some.inj here
    obtain ⟨high,same⟩ := read (by rw [reply]; exact fun is => nomatch is)
    replace careful := careful high
    rw [Known,← same,reply] at careful
    have after := @left_looks { s with control := .resolve name, stack := .aliasing domain :: s.stack } domain depth
      (.aliasing domain) name rfl (congrArg _ stack)
    exact ⟨.looks name domain depth _ high rfl careful (congrArg _ stack) (.inl rfl) queries,by omega⟩
  | delegated cache ns_names =>
    rw [reply] at here
    obtain ⟨high,same⟩ := read (by rw [reply]; exact fun is => nomatch is)
    replace careful := careful high
    rw [Known,← same,reply] at careful
    cases ns_names with
    | nil =>
      obtain rfl := some.inj here
      have after := @left_leaves { s with control := .returned 0, cache := cache } 0 domain depth rfl stack
      exact ⟨.leaves 0 domain depth level rfl stack few,by omega⟩
    | cons ns rest =>
      obtain rfl := some.inj here
      have after := @left_looks { s with control := .resolve ns, cache := cache, stack := .delegating domain depth :: s.stack }
        domain depth (.delegating domain depth) ns rfl (congrArg _ stack)
      exact ⟨.looks ns domain depth _ high rfl careful (congrArg _ stack) (.inr rfl) queries,by omega⟩
  | fault =>
    obtain ⟨high,same⟩ := read (by rw [reply]; exact fun is => nomatch is)
    replace careful := careful high
    rw [Known,← same,reply] at careful
    cases careful

theorem compute_shape {leftover : Nat → Bytes} (shape : Shape s) (here : compute leftover s = some t)
    (careful : Careful s (.compute leftover)) : Shape t ∧ left t < left s := by
  cases shape with
  | begins domain control stack queries =>
    have before := left_begins control stack
    unfold compute at here
    rw [control] at here
    dsimp only at here
    split at here
    · obtain rfl := some.inj here
      refine ⟨.ends _ rfl stack (by rw [queries]; exact Nat.zero_le _),?_⟩
      rw [before,left,stack]
      exact Nat.succ_pos _
    · obtain rfl := some.inj here
      have after := @left_waits { s with control := .receive, stack := .resolving domain :: s.stack, queries := s.queries + 1 }
        domain 0 rfl (congrArg _ stack)
      exact ⟨.waits domain 0 (Nat.zero_le _) rfl (congrArg _ stack) (by rw [queries]),by omega⟩
  | waits domain depth level control =>
    unfold compute at here
    rw [control] at here
    cases here
  | reads r domain depth level control stack queries => exact reads_next level control stack queries here careful
  | looks name domain depth frame level control known stack top queries =>
    have before := left_looks control stack
    unfold compute at here
    rw [control] at here
    dsimp only at here
    rw [if_pos known] at here
    obtain rfl := some.inj here
    have after := @left_found { s with control := .returned (dns_cache_lookup s.cache name) } domain depth frame _ rfl stack top
    exact ⟨.found _ domain depth frame level rfl stack top queries,by omega⟩
  | found ip domain depth frame level control stack top queries =>
    have few : s.queries ≤ most_queries := by
      rw [most_queries]
      omega
    have before := left_found control stack top
    unfold compute at here
    rw [control,stack] at here
    obtain rfl | rfl := top
    · obtain rfl := some.inj here
      have after := @left_leaves ⟨keep (leftover 0) s.cache domain ip,tower domain depth,.returned ip,s.queries⟩ ip domain depth rfl rfl
      exact ⟨.leaves ip domain depth (by omega) rfl rfl few,by omega⟩
    · dsimp only at here
      split at here
      · obtain rfl := some.inj here
        have after := @left_waits ⟨s.cache,.asking domain depth :: tower domain depth,.receive,s.queries + 1⟩ domain (depth + 1)
          rfl rfl
        exact ⟨.waits domain (depth + 1) (by omega) rfl rfl (congrArg (· + 1) queries),by omega⟩
      · obtain rfl := some.inj here
        have after := @left_leaves ⟨s.cache,tower domain depth,.returned ip,s.queries⟩ ip domain depth rfl rfl
        exact ⟨.leaves ip domain depth (by omega) rfl rfl few,by omega⟩
  | leaves ip domain depth level control stack queries =>
    have before := left_leaves control stack
    unfold compute at here
    rw [control,stack] at here
    cases depth with
    | zero =>
      obtain rfl := some.inj here
      refine ⟨.ends ip rfl rfl queries,?_⟩
      rw [before]
      exact Nat.succ_pos _
    | succ depth =>
      obtain rfl := some.inj here
      have after := @left_leaves ⟨keep (leftover 0) s.cache domain ip,tower domain depth,.returned ip,s.queries⟩ ip domain depth rfl rfl
      exact ⟨.leaves ip domain depth (by omega) rfl rfl queries,by omega⟩
  | ends ip control stack =>
    unfold compute at here
    rw [control,stack] at here
    cases here

theorem respond_shape {r : Response} (shape : Shape s) (here : respond s r = some t) : Shape t ∧ left t < left s := by
  unfold respond at here
  cases shape with
  | waits domain depth level control stack queries =>
    have before := left_waits control stack
    rw [control,stack] at here
    cases depth with
    | zero =>
      simp only [tower] at here
      split at here
      · obtain rfl := some.inj here
        refine ⟨.ends 0 rfl rfl (by rw [queries]; decide),?_⟩
        rw [before]
        exact Nat.succ_pos _
      · obtain rfl := some.inj here
        have after := @left_reads ⟨s.cache,[.resolving domain],.parse r domain 0,s.queries⟩ domain 0 r rfl rfl
        exact ⟨.reads r domain 0 level rfl rfl queries,by omega⟩
    | succ depth =>
      simp only [tower] at here
      obtain rfl := some.inj here
      have after := @left_reads ⟨s.cache,tower domain (depth + 1),.parse r domain (depth + 1),s.queries⟩ domain (depth + 1) r
        rfl rfl
      refine ⟨.reads r domain (depth + 1) level rfl rfl queries,?_⟩
      rw [tower] at after
      omega
  | begins domain control | reads _ domain depth level control | looks _ _ _ _ _ control
  | found _ _ _ _ _ control | leaves _ _ _ _ control | ends _ control =>
    rw [control] at here
    cases here

theorem step_shape {a : Action} (shape : Shape s) (step : (guarded dns_system Careful).step s a t) :
    Shape t ∧ left t < left s := by
  obtain ⟨here,careful⟩ := step
  cases a with
  | compute leftover => exact compute_shape shape here careful
  | response r => exact respond_shape shape here

theorem start_shape (start : dns_system.start s) : Shape s ∧ left s = 5 * DNS_MAX_DELEGATION_DEPTH + 9 := by
  obtain ⟨cache,domain,rfl⟩ := start
  exact ⟨.begins domain rfl rfl rfl,rfl⟩

/-- The calls of one domain are as many as its levels. -/
theorem shape_bounds (shape : Shape s) : s.queries ≤ most_queries ∧ activations s ≤ most_queries := by
  unfold activations most_queries
  cases shape with
  | begins domain control stack queries =>
    rw [control,stack,queries]
    exact ⟨Nat.zero_le _,Nat.zero_le _⟩
  | waits domain depth level control stack queries =>
    rw [control,stack,tower_parses,queries]
    dsimp only
    omega
  | reads r domain depth level control stack queries =>
    rw [control,stack,tower_parses,queries]
    dsimp only
    omega
  | looks name domain depth frame level control known stack top queries =>
    have counts : parses frame = true := by obtain rfl | rfl := top <;> rfl
    rw [control,stack,List.countP_cons_of_pos counts,tower_parses,queries]
    dsimp only
    omega
  | found ip domain depth frame level control stack top queries =>
    have counts : parses frame = true := by obtain rfl | rfl := top <;> rfl
    rw [control,stack,List.countP_cons_of_pos counts,tower_parses,queries]
    dsimp only
    omega
  | leaves ip domain depth level control stack queries =>
    rw [control,stack,tower_parses]
    exact ⟨queries,by dsimp only; omega⟩
  | ends ip control stack queries =>
    rw [control,stack]
    exact ⟨queries,Nat.zero_le _⟩

/-- A call that has not returned can go on. -/
theorem shape_progress (shape : Shape s) : Finished s ∨ ∃ a t, dns_system.step s a t := by
  cases shape with
  | begins domain control | looks domain _ _ _ _ control =>
    refine .inr ⟨.compute fun _ _ => 0,?_⟩
    simp only [dns_system,next,compute,control]
    split
    · exact ⟨_,rfl⟩
    · exact ⟨_,rfl⟩
  | waits domain depth level control stack =>
    refine .inr ⟨.response ⟨fun _ => 0,512⟩,?_⟩
    simp only [dns_system,next,respond,control,stack]
    cases depth with
    | zero => exact ⟨_,rfl⟩
    | succ depth => exact ⟨_,rfl⟩
  | reads r domain depth level control =>
    refine .inr ⟨.compute fun _ _ => 0,?_⟩
    simp only [dns_system,next,compute,control]
    split
    · exact ⟨_,rfl⟩
    · exact ⟨_,rfl⟩
    · exact ⟨_,rfl⟩
    · exact ⟨_,rfl⟩
    · exact ⟨_,rfl⟩
  | found ip domain depth frame level control stack top =>
    refine .inr ⟨.compute fun _ _ => 0,?_⟩
    simp only [dns_system,next,compute,control,stack]
    obtain rfl | rfl := top
    · exact ⟨_,rfl⟩
    · dsimp only
      split
      · exact ⟨_,rfl⟩
      · exact ⟨_,rfl⟩
  | leaves ip domain depth level control stack =>
    refine .inr ⟨.compute fun _ _ => 0,?_⟩
    simp only [dns_system,next,compute,control,stack]
    cases depth with
    | zero => exact ⟨_,rfl⟩
    | succ depth => exact ⟨_,rfl⟩
  | ends ip control stack => exact .inl ⟨ip,control,stack⟩

/-- Along every careful run, whatever the servers answer: the number of steps, of queries and of
    nested packets is bounded by the depth of delegation, and the call goes on until it returns. -/
theorem dns_bounded {s t : State} {as : List Action} (start : dns_system.start s) (run : Run (guarded dns_system Careful) as s t) :
    as.length ≤ 5 * DNS_MAX_DELEGATION_DEPTH + 9 ∧ t.queries ≤ most_queries ∧ activations t ≤ most_queries ∧
      (Finished t ∨ ∃ a u, dns_system.step t a u) := by
  obtain ⟨shape,most⟩ := start_shape start
  obtain ⟨last,bound⟩ := run_length (fun _ _ _ => step_shape) run shape
  obtain ⟨queries,nested⟩ := shape_bounds last
  exact ⟨by omega,queries,nested,shape_progress last⟩

/-- The domain "a". -/
def domain_a : Name := [97]

/-- One question, for "a", and one answer: it is another name for "a". -/
def alias_of_itself : Response where
  packet i := [0xF0,0x0F,0x81,0x80,0,1,0,1,0,0,0,0,1,97,0,0,1,0,1,0xC0,12,0,5,0,1,0,0,0,60,0,2,0xC0,12].getD i 0
  size := 33

theorem alias_name : (dns_read_name alias_of_itself.packet 33 31).1 = some domain_a := by
  have place : ((alias_of_itself.packet 31 &&& 0x3F).toNat <<< 8) ||| (alias_of_itself.packet (31 + 1)).toNat = 12 := by decide
  have copied : copy_label alias_of_itself.packet true (alias_of_itself.packet 12).toNat (12 + 1) [] 2 = (some [97],2) := by
    decide
  have next : 12 + 1 + (alias_of_itself.packet 12).toNat = 14 := by decide
  unfold dns_read_name
  rw [read_labels,if_pos (by decide),if_pos (by decide),if_neg (by decide),if_neg (by decide),place]
  rw [read_labels,if_pos (by decide),if_neg (by decide)]
  simp only [if_true]
  rw [if_neg (by decide),copied]
  simp only
  rw [next,read_labels,if_neg (by decide)]
  rfl

theorem alias_packet (leftover : Nat → Bytes) (cache : Cache) :
    sections leftover alias_of_itself cache = .renamed domain_a := by
  have name : dns_skip_name alias_of_itself.packet 33 12 = 3 := by
    rw [dns_skip_name,if_pos (by decide),if_neg (by decide),dns_skip_name,if_neg (by decide)]
    rfl
  have pointer : dns_skip_name alias_of_itself.packet 33 19 = 2 := by
    rw [dns_skip_name,if_pos (by decide),if_pos (by decide)]
  have asked : questions alias_of_itself.packet 33 1 12 = 19 := by rw [questions,name,questions]; rfl
  have answered : answers alias_of_itself.packet 33 1 19 = .cname (some domain_a) := by
    rw [answers,pointer,if_neg (by decide),if_pos (by decide)]
    exact congrArg Answer.cname alias_name
  have counts : bswap16_at alias_of_itself.packet 4 = 1 ∧ bswap16_at alias_of_itself.packet 6 = 1 := by decide
  have size : alias_of_itself.size = 33 := rfl
  rw [sections,counts.1,counts.2,size]
  simp only [sizeof_dnshdr,asked,answered]
  exact if_neg (by decide)

theorem alias_read (leftover : Nat → Bytes) (cache : Cache) :
    dns_parse_packet leftover alias_of_itself cache 0 = .renamed domain_a :=
  (if_neg (by decide)).trans (alias_packet leftover cache)

/-- The calls of an alias that was followed `n` times. -/
def followed : Nat → List Frame
  | 0 => []
  | n + 1 => .aliasing domain_a :: .resolving domain_a :: followed n

/-- Each answer leads to the next query. -/
theorem follow_run (n : Nat) : ∃ as, Run dns_system as ⟨[],[],.resolve domain_a,0⟩ ⟨[],followed n,.resolve domain_a,n⟩ := by
  induction n with
  | zero => exact ⟨[],.done _⟩
  | succ n ih =>
    obtain ⟨as,run⟩ := ih
    have sends : next ⟨[],followed n,.resolve domain_a,n⟩ (.compute fun _ _ => 0) =
        some ⟨[],.resolving domain_a :: followed n,.receive,n + 1⟩ := rfl
    have answers : next ⟨[],.resolving domain_a :: followed n,.receive,n + 1⟩ (.response alias_of_itself) =
        some ⟨[],.resolving domain_a :: followed n,.parse alias_of_itself domain_a 0,n + 1⟩ := rfl
    have reads : next ⟨[],.resolving domain_a :: followed n,.parse alias_of_itself domain_a 0,n + 1⟩ (.compute fun _ _ => 0) =
        some ⟨[],followed (n + 1),.resolve domain_a,n + 1⟩ := by
      rw [next,compute]
      simp only [alias_read]
      rfl
    exact ⟨_,run_append run (.step sends (.step answers (.step reads (.done _))))⟩

/-- No number of queries is enough. -/
theorem alias_forever : ¬ ∃ most, ∀ s as t, dns_system.start s → Run dns_system as s t → t.queries ≤ most ∧ activations t ≤ most := by
  rintro ⟨most,all⟩
  obtain ⟨as,run⟩ := follow_run (most + 1)
  exact absurd (all _ as _ ⟨[],domain_a,rfl⟩ run).1 (Nat.not_succ_le_self most)

/-- A call for "b", which is another name for "a", whose address is known. -/
def known_alias (stack : List Frame) (control : Control) (queries : Nat) : State :=
  ⟨[⟨strcpy (fun _ => 0) domain_a,7⟩],stack,control,queries⟩

theorem dns_bounded_known : activations (known_alias [.aliasing [98],.resolving [98]] (.returned 7) 1) ≤ most_queries := by
  have sends : (guarded dns_system Careful).step (known_alias [] (.resolve [98]) 0) (.compute fun _ _ => 90)
      (known_alias [.resolving [98]] .receive 1) := ⟨rfl,trivial⟩
  have answers : (guarded dns_system Careful).step (known_alias [.resolving [98]] .receive 1) (.response alias_of_itself)
      (known_alias [.resolving [98]] (.parse alias_of_itself [98] 0) 1) := ⟨rfl,trivial⟩
  have reads : (guarded dns_system Careful).step (known_alias [.resolving [98]] (.parse alias_of_itself [98] 0) 1)
      (.compute fun _ _ => 90)
      (known_alias [.aliasing [98],.resolving [98]] (.resolve domain_a) 1) := by
    constructor
    · simp only [dns_system,next,compute,known_alias,alias_read]
    · intro _
      simp only [Known,known_alias,alias_packet]
      decide
  have finds : (guarded dns_system Careful).step (known_alias [.aliasing [98],.resolving [98]] (.resolve domain_a) 1)
      (.compute fun _ _ => 90)
      (known_alias [.aliasing [98],.resolving [98]] (.returned 7) 1) := ⟨rfl,trivial⟩
  exact (dns_bounded ⟨_,[98],rfl⟩ (.step sends (.step answers (.step reads (.step finds (.done _)))))).2.2.1

end MicroOS.Dns

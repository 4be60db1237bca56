import MicroOS.Sockets

/-!
The byte streams of sockets. Bytes wait in the pending buffer of a child or in the receive
buffer of a socket, each in a block of its own, and a child changes from one to the other
when it is accepted (`Wired`); so what was delivered is what was returned and what waits,
whatever the order of datagrams, hand-overs and receives (`socket_streams`).
-/
namespace MicroOS.Sockets
open Buffers Tcp OpenFiles TcpDemux BindTables Runs
open Function (update update_eq_self_iff update_of_ne update_self)
open Option (bind_some some.inj)

/-- Who has a buffer. -/
inductive Owner where
  | pending (udp_socket : Nat)
  | received (socket : Nat)
  deriving DecidableEq

def buffer (k : Kernel) : Owner → Buffer
  | .pending u => (k.udp_socket_at u).elim ⟨0,0⟩ UdpSocket.pending
  | .received p => (k.socket_at p).elim ⟨0,0⟩ Socket.received

/-- A UDP socket is the one of a socket, or a child that is not accepted. -/
def Placed (k : Kernel) (u : Nat) (s : UdpSocket) : Prop :=
  s.recv = .udp_pending_recv ∨ s.recv = .socket_udp_recv ∧ ∃ socket, k.socket_at s.data = some socket ∧ socket.layer = .udp u

/-- A socket is the one its layer's socket points back to. -/
def Backed (k : Kernel) (p : Nat) : Layer → Prop
  | .udp u => ∃ s, k.udp_socket_at u = some s ∧ s.recv = .socket_udp_recv ∧ s.data = p
  | .tcp t => k.tcp_socket_at t = some p

/-- A child that waits in a queue. -/
def Waiting (k : Kernel) (c : Nat) : Prop := c ≠ 0 ∧ ∃ child, k.udp_socket_at c = some child ∧ child.recv = .udp_pending_recv

structure Wired (k : Kernel) : Prop where
  binds : ∀ u ∈ k.binds, u ≠ 0 → ∃ s, k.udp_socket_at u = some s
  udp : ∀ u s, k.udp_socket_at u = some s → Placed k u s
  tcp : ∀ t p, k.tcp_socket_at t = some p → ∃ socket, k.socket_at p = some socket ∧ socket.layer = .tcp t
  socket : ∀ p socket, k.socket_at p = some socket → Backed k p socket.layer
  queue : ∀ l s, k.udp_socket_at l = some s → s.accept_queue.Nodup ∧ ∀ c ∈ s.accept_queue, Waiting k c
  apart : ∀ l l' s s', l ≠ l' → k.udp_socket_at l = some s → k.udp_socket_at l' = some s' →
    List.Disjoint s.accept_queue s'.accept_queue

/-- What was delivered is what was returned and what waits. -/
structure Accounted (k : Kernel) (a : Account) (content : Owner → List UInt8) : Prop where
  socket : ∀ p socket, k.socket_at p = some socket → a.delivered socket.layer = a.returned p ++ content (.received p)
  child : ∀ u s, k.udp_socket_at u = some s → s.recv = .udp_pending_recv → a.delivered (.udp u) = content (.pending u)
  no_udp : ∀ u, k.udp_socket_at u = none → a.delivered (.udp u) = []
  no_tcp : ∀ t, k.tcp_socket_at t = none → a.delivered (.tcp t) = []
  no_socket : ∀ p, k.socket_at p = none → a.returned p = []

structure Kept (x : Kernel × Account) : Prop where
  wired : Wired x.1
  content : ∃ content, Owned x.1.heap (buffer x.1) content ∧ Accounted x.1 x.2 content

/-! ### Updates -/

section
variable (k : Kernel)

section
variable (u : Nat) (s : UdpSocket)

@[simp] theorem setUdp_udp (a : Nat) :
    (setUdp k u s).udp_socket_at a = if a = u then some s else k.udp_socket_at a := rfl
@[simp] theorem setUdp_tcp : (setUdp k u s).tcp_socket_at = k.tcp_socket_at := rfl
@[simp] theorem setUdp_socket : (setUdp k u s).socket_at = k.socket_at := rfl
@[simp] theorem setUdp_heap : (setUdp k u s).heap = k.heap := rfl
@[simp] theorem setUdp_binds : (setUdp k u s).binds = k.binds := rfl

end

@[simp] theorem setSocket_socket (p : Nat) (s : Socket) (a : Nat) :
    (setSocket k p s).socket_at a = if a = p then some s else k.socket_at a := rfl
@[simp] theorem setSocket_udp (p : Nat) (s : Socket) : (setSocket k p s).udp_socket_at = k.udp_socket_at := rfl
@[simp] theorem setSocket_tcp (p : Nat) (s : Socket) : (setSocket k p s).tcp_socket_at = k.tcp_socket_at := rfl
@[simp] theorem setSocket_heap (p : Nat) (s : Socket) : (setSocket k p s).heap = k.heap := rfl
@[simp] theorem setSocket_binds (p : Nat) (s : Socket) : (setSocket k p s).binds = k.binds := rfl

theorem buffer_setUdp (u : Nat) (s : UdpSocket) :
    buffer (setUdp k u s) = update (buffer k) (.pending u) s.pending := by
  funext o
  cases o with
  | pending v =>
    by_cases here : v = u
    · rw [here,update_self]
      simp [buffer]
    · rw [update_of_ne (by simpa using here)]
      simp [buffer,here]
  | received p => rfl

theorem buffer_setSocket (p : Nat) (s : Socket) :
    buffer (setSocket k p s) = update (buffer k) (.received p) s.received := by
  funext o
  cases o with
  | pending u => rfl
  | received q =>
    by_cases here : q = p
    · rw [here,update_self]
      simp [buffer]
    · rw [update_of_ne (by simpa using here)]
      simp [buffer,here]

end

section
variable {k : Kernel} {a : Account} {content : Owner → List UInt8}

variable {u : Nat} {bytes : List UInt8} {blocks : Blocks}

/-- A UDP socket changes, but not its place; only children that wait are in its queue, once. -/
theorem wired_setUdp (wired : Wired k) {s s' : UdpSocket} (here : k.udp_socket_at u = some s)
    (data : s'.data = s.data) (recv : s'.recv = s.recv) (distinct : s'.accept_queue.Nodup)
    (wait : ∀ c ∈ s'.accept_queue, Waiting k c) (alone : ∀ l t, l ≠ u → k.udp_socket_at l = some t →
      List.Disjoint s'.accept_queue t.accept_queue) : Wired (setUdp k u s') := by
  have lookup (v : Nat) (t' : UdpSocket) (found : (setUdp k u s').udp_socket_at v = some t') :
      (v = u ∧ t' = s') ∨ v ≠ u ∧ k.udp_socket_at v = some t' := by
    rw [setUdp_udp] at found
    split at found
    · rename_i same
      exact .inl ⟨same,(some.inj found).symm⟩
    · rename_i other
      exact .inr ⟨other,found⟩
  have forward (v : Nat) (t : UdpSocket) (found : k.udp_socket_at v = some t) :
      ∃ t', (setUdp k u s').udp_socket_at v = some t' ∧ t'.data = t.data ∧ t'.recv = t.recv := by
    by_cases same : v = u
    · rw [same,here] at found
      obtain rfl := some.inj found
      exact ⟨s',by rw [setUdp_udp,if_pos same],data,recv⟩
    · exact ⟨t,by rw [setUdp_udp,if_neg same,found],rfl,rfl⟩
  have waiting (c : Nat) (before : Waiting k c) : Waiting (setUdp k u s') c := by
    obtain ⟨nonnull,child,found,pending⟩ := before
    obtain ⟨child',found',-,recv'⟩ := forward c child found
    exact ⟨nonnull,child',found',recv'.trans pending⟩
  refine ⟨?_,?_,wired.tcp,?_,?_,?_⟩
  · intro v member nonnull
    obtain ⟨t,found⟩ := wired.binds v member nonnull
    obtain ⟨t',found',-⟩ := forward v t found
    exact ⟨t',found'⟩
  · intro v t' found
    obtain ⟨rfl,rfl⟩ | ⟨-,before⟩ := lookup v t' found
    · rw [Placed,data,recv]
      exact wired.udp v s here
    · exact wired.udp v t' before
  · intro p socket found
    have backed := wired.socket p socket found
    cases layer : socket.layer with
    | udp v =>
      rw [layer] at backed
      obtain ⟨t,found',recv',data'⟩ := backed
      obtain ⟨t',after,same_data,same_recv⟩ := forward v t found'
      exact ⟨t',after,same_recv.trans recv',same_data.trans data'⟩
    | tcp t =>
      rw [layer] at backed
      exact backed
  · intro l t' found
    obtain ⟨rfl,rfl⟩ | ⟨-,before⟩ := lookup l t' found
    · exact ⟨distinct,fun c member => waiting c (wait c member)⟩
    · exact ⟨(wired.queue l t' before).1,fun c member => waiting c ((wired.queue l t' before).2 c member)⟩
  · intro l l' t t' other found found'
    obtain ⟨rfl,rfl⟩ | ⟨-,before⟩ := lookup l t found
    · obtain ⟨rfl,rfl⟩ | ⟨-,before'⟩ := lookup l' t' found'
      · exact absurd rfl other
      · exact alone l' t' other.symm before'
    · obtain ⟨rfl,rfl⟩ | ⟨-,before'⟩ := lookup l' t' found'
      · exact (alone l t other before).symm
      · exact wired.apart l l' t t' other before before'

/-- A UDP socket changes, but not its place nor its queue. -/
theorem wired_setUdp_same (wired : Wired k) {u : Nat} {s s' : UdpSocket} (here : k.udp_socket_at u = some s)
    (data : s'.data = s.data) (recv : s'.recv = s.recv) (queue : s'.accept_queue = s.accept_queue) : Wired (setUdp k u s') := by
  obtain ⟨distinct,wait⟩ := wired.queue u s here
  rw [← queue] at distinct wait
  refine wired_setUdp wired here data recv distinct wait fun l t other found => ?_
  rw [queue]
  exact wired.apart u l s t other.symm here found

/-- A new child, in the binds but in no queue. -/
theorem wired_child (wired : Wired k) {child : UdpSocket} (unused : k.udp_socket_at u = none)
    (recv : child.recv = .udp_pending_recv) (queue : child.accept_queue = []) {binds : List Nat}
    (bound : ∀ v ∈ binds, v = u ∨ v ∈ k.binds) : Wired { setUdp k u child with binds := binds } := by
  have forward (v : Nat) (t : UdpSocket) (found : k.udp_socket_at v = some t) : (setUdp k u child).udp_socket_at v = some t := by
    rw [setUdp_udp,if_neg,found]
    rintro rfl
    rw [unused] at found
    cases found
  have lookup (v : Nat) (t : UdpSocket) (found : (setUdp k u child).udp_socket_at v = some t) :
      (v = u ∧ t = child) ∨ k.udp_socket_at v = some t := by
    rw [setUdp_udp] at found
    split at found
    · rename_i same
      exact .inl ⟨same,(some.inj found).symm⟩
    · exact .inr found
  refine ⟨?_,?_,wired.tcp,?_,?_,?_⟩
  · intro v member nonnull
    obtain rfl | old := bound v member
    · exact ⟨child,by rw [setUdp_udp,if_pos rfl]⟩
    · obtain ⟨t,found⟩ := wired.binds v old nonnull
      exact ⟨t,forward v t found⟩
  · intro v t found
    obtain ⟨rfl,rfl⟩ | before := lookup v t found
    · exact .inl recv
    · exact wired.udp v t before
  · intro p socket found
    have backed := wired.socket p socket found
    cases layer : socket.layer with
    | udp v =>
      rw [layer] at backed
      obtain ⟨t,found',same⟩ := backed
      exact ⟨t,forward v t found',same⟩
    | tcp t =>
      rw [layer] at backed
      exact backed
  · intro l t found
    obtain ⟨rfl,rfl⟩ | before := lookup l t found
    · rw [queue]
      exact ⟨List.nodup_nil,fun c member => absurd member List.not_mem_nil⟩
    · refine ⟨(wired.queue l t before).1,fun c member => ?_⟩
      obtain ⟨nonnull,t',found',pending⟩ := (wired.queue l t before).2 c member
      exact ⟨nonnull,t',forward c t' found',pending⟩
  · intro l l' t t' other found found'
    obtain ⟨rfl,rfl⟩ | before := lookup l t found
    · rw [queue]
      exact List.disjoint_nil_left _
    obtain ⟨rfl,rfl⟩ | before' := lookup l' t' found'
    · rw [queue]
      exact List.disjoint_nil_right _
    exact wired.apart l l' t t' other before before'

/-- A socket changes, but not its layer. -/
theorem wired_setSocket (wired : Wired k) {p : Nat} {s s' : Socket} (here : k.socket_at p = some s)
    (layer : s'.layer = s.layer) : Wired (setSocket k p s') := by
  have forward (q : Nat) (t : Socket) (found : k.socket_at q = some t) :
      ∃ t', (setSocket k p s').socket_at q = some t' ∧ t'.layer = t.layer := by
    by_cases same : q = p
    · rw [same,here] at found
      obtain rfl := some.inj found
      exact ⟨s',by rw [setSocket_socket,if_pos same],layer⟩
    · exact ⟨t,by rw [setSocket_socket,if_neg same,found],rfl⟩
  refine ⟨wired.binds,?_,?_,?_,wired.queue,wired.apart⟩
  · intro u s found
    obtain pending | ⟨recv,t,place,layer⟩ := wired.udp u s found
    · exact .inl pending
    · obtain ⟨t',place',layer'⟩ := forward _ t place
      exact .inr ⟨recv,t',place',layer'.trans layer⟩
  · intro t q found
    obtain ⟨socket,place,layer⟩ := wired.tcp t q found
    obtain ⟨socket',place',layer'⟩ := forward q socket place
    exact ⟨socket',place',layer'.trans layer⟩
  · intro q t found
    rw [setSocket_socket] at found
    split at found
    · rename_i same
      obtain rfl := some.inj found
      rw [layer,same]
      exact wired.socket p s here
    · exact wired.socket q t found

/-- A layer's socket has one socket over it. -/
theorem layer_unique (wired : Wired k) {p q : Nat} {s t : Socket} (first : k.socket_at p = some s)
    (second : k.socket_at q = some t) (same : s.layer = t.layer) : p = q := by
  have one := wired.socket p s first
  have other := wired.socket q t second
  rw [← same] at other
  cases layer : s.layer with
  | udp u =>
    rw [layer] at one other
    obtain ⟨b,found,-,rfl⟩ := one
    obtain ⟨b',found',-,rfl⟩ := other
    rw [found] at found'
    rw [some.inj found']
  | tcp t =>
    rw [layer] at one other
    exact some.inj (one.symm.trans other)

/-! ### Receiving -/

section
variable {h : Heap} {place : Place} {b : Buffer} (holds : Holds h b bytes) (fresh : Fresh h place) (data : List UInt8)
include holds fresh

theorem receive_spec : ∃ h' b', receive h place b data = some (h',b') ∧
      Holds h' b' (bytes ++ data) ∧ Replaced h b.data h' b'.data := by
  unfold receive
  by_cases null : b.data = 0
  · have none : b.len = 0 := by
      obtain ⟨length,⟨-,rfl⟩ | ⟨nonnull,-⟩⟩ := holds
      · exact length
      · exact absurd null nonnull
    obtain ⟨h',written,after,replaced⟩ := holds_first holds fresh (by omega : data.length = b.len + data.length) null
    refine ⟨h',⟨(kmalloc h place data.length).2,b.len + data.length⟩,?_,after,replaced⟩
    simp only [if_pos null]
    rw [written]
    rfl
  · obtain ⟨h1,h2,h3,copied,freed,written,after,replaced⟩ :=
      holds_grown holds fresh (by omega : data.length + b.len = b.len + data.length) null
    refine ⟨h3,⟨(kmalloc h place (data.length + b.len)).2,b.len + data.length⟩,?_,after,replaced⟩
    simp only [if_neg null]
    rw [copied]
    simp only [Option.bind_eq_bind,bind_some]
    rw [freed,bind_some,written,bind_some]

theorem udp_pending_spec : ∃ h' b', udp_pending h place b data = some (h',b') ∧
      Holds h' b' (bytes ++ data) ∧ Replaced h b.data h' b'.data := by
  have same : udp_pending h place b data = receive h place b data := by
    unfold udp_pending receive
    by_cases null : b.data = 0
    · have none : b.len = 0 := by
        obtain ⟨length,⟨-,rfl⟩ | ⟨nonnull,-⟩⟩ := holds
        · exact length
        · exact absurd null nonnull
      simp only [null,ne_eq,not_true_eq_false,if_false,if_true,none,Nat.zero_add]
    · simp only [ne_eq,null,not_false_eq_true,if_true,if_false,Nat.add_comm]
  rw [same]
  exact receive_spec holds fresh data

end

theorem accounted_receive (wired : Wired k) (accounted : Accounted k a content) {p : Nat} {socket s' : Socket}
    (here : k.socket_at p = some socket) (layer : s'.layer = socket.layer) (data : List UInt8) :
    Accounted (setSocket k p s') (a.record (.delivered socket.layer data))
      (update content (.received p) (content (.received p) ++ data)) := by
  have backed := wired.socket p socket here
  constructor
  · intro q t found
    rw [setSocket_socket] at found
    by_cases same : q = p
    · rw [if_pos same] at found
      obtain rfl := some.inj found
      simp only [Account.record,layer,same,update_self]
      rw [accounted.socket p socket here,List.append_assoc]
    · rw [if_neg same] at found
      have other : t.layer ≠ socket.layer := fun is => same (layer_unique wired found here is)
      have other' : Owner.received q ≠ .received p := by simpa using same
      simp only [Account.record,update_of_ne other,update_of_ne other']
      exact accounted.socket q t found
  · intro u t found pending
    have other : Layer.udp u ≠ socket.layer := by
      intro is
      rw [← is] at backed
      obtain ⟨t',found',recv,-⟩ := backed
      rw [show k.udp_socket_at u = some t from found] at found'
      rw [← some.inj found',pending] at recv
      cases recv
    simp only [Account.record,update_of_ne other]
    rw [update_of_ne (by simp)]
    exact accounted.child u t found pending
  · intro u none
    have other : Layer.udp u ≠ socket.layer := by
      intro is
      rw [← is] at backed
      obtain ⟨t',found',-⟩ := backed
      rw [show k.udp_socket_at u = .none from none] at found'
      cases found'
    simp only [Account.record,update_of_ne other]
    exact accounted.no_udp u none
  · intro t none
    have other : Layer.tcp t ≠ socket.layer := by
      intro is
      rw [← is] at backed
      cases none.symm.trans backed
    simp only [Account.record,update_of_ne other]
    exact accounted.no_tcp t none
  · intro q none
    refine accounted.no_socket q ?_
    rw [setSocket_socket] at none
    split at none
    · cases none
    · exact none

theorem accounted_child (accounted : Accounted k a content) {u : Nat} {s s' : UdpSocket}
    (wired : Wired k) (here : k.udp_socket_at u = some s) (pending : s.recv = .udp_pending_recv) (data : List UInt8) :
    Accounted (setUdp k u s') (a.record (.delivered (.udp u) data))
      (update content (.pending u) (content (.pending u) ++ data)) := by
  constructor
  · intro p socket found
    have other : socket.layer ≠ .udp u := by
      intro is
      have backed := wired.socket p socket found
      rw [is] at backed
      obtain ⟨t,found',recv,-⟩ := backed
      rw [here] at found'
      rw [← some.inj found',pending] at recv
      cases recv
    simp only [Account.record,update_of_ne other]
    rw [update_of_ne (by simp)]
    exact accounted.socket p socket found
  · intro v t found recv
    rw [setUdp_udp] at found
    by_cases same : v = u
    · simp only [Account.record,same,update_self]
      rw [accounted.child u s here pending]
    · rw [if_neg same] at found
      have other : Layer.udp v ≠ .udp u := by simpa using same
      have other' : Owner.pending v ≠ .pending u := by simpa using same
      simp only [Account.record,update_of_ne other,update_of_ne other']
      exact accounted.child v t found recv
  · intro v none
    rw [setUdp_udp] at none
    split at none
    · cases none
    · rename_i same
      have other : Layer.udp v ≠ .udp u := by simpa using same
      simp only [Account.record,update_of_ne other]
      exact accounted.no_udp v none
  · intro t none
    simp only [Account.record,update_of_ne (show Layer.tcp t ≠ .udp u by simp)]
    exact accounted.no_tcp t none
  · exact accounted.no_socket

theorem holds_received (owned : Owned k.heap (buffer k) content) {p : Nat} {socket : Socket}
    (here : k.socket_at p = some socket) : Holds k.heap socket.received (content (.received p)) := by
  have := owned.holds (.received p)
  simpa [buffer,here] using this

/-- The receive buffer of a socket is replaced. -/
theorem kept_received (wired : Wired k) (owned : Owned k.heap (buffer k) content) {p : Nat} {socket : Socket}
    (here : k.socket_at p = some socket) {h' : Heap} {b' : Buffer} (after : Holds h' b' bytes)
    (replaced : Replaced k.heap socket.received.data h' b'.data)
    (counted : Accounted (setSocket k p { socket with received := b' }) a (update content (.received p) bytes)) :
    Kept ({ setSocket k p { socket with received := b' } with heap := h' },a) := by
  have wired' := @wired_setSocket k wired p socket { socket with received := b' } here rfl
  refine ⟨⟨wired'.binds,wired'.udp,wired'.tcp,wired'.socket,wired'.queue,wired'.apart⟩,update content (.received p) bytes,?_,
    counted.socket,counted.child,counted.no_udp,counted.no_tcp,counted.no_socket⟩
  have same : (buffer k (.received p)).data = socket.received.data := by simp [buffer,here]
  change Owned h' (buffer (setSocket k p { socket with received := b' })) _
  rw [buffer_setSocket]
  exact owned_replaced owned after (by rw [same]; exact replaced)

section
variable (kept : Kept (k,a)) {place : Place} (fresh : Fresh k.heap place)
include kept fresh

/-- Data for a socket goes to the end of its receive buffer. -/
theorem socket_receive_spec {p : Nat} {socket : Socket} (here : k.socket_at p = some socket) (data : List UInt8) :
    ∃ k', socket_receive k place p data = some k' ∧ Kept (k',a.record (.delivered socket.layer data)) := by
  obtain ⟨wired,content,owned,accounted⟩ := kept
  obtain ⟨h',b',received,after,replaced⟩ := receive_spec (holds_received owned here) fresh data
  refine ⟨_,by rw [socket_receive,here]; simp only; rw [received],?_⟩
  exact kept_received wired owned here after replaced (accounted_receive wired accounted here (by rfl) data)

/-- Data for a child goes to the end of its pending buffer. -/
theorem udp_pending_recv_spec {u : Nat} {s : UdpSocket}
    (here : k.udp_socket_at u = some s) (pending : s.recv = .udp_pending_recv) (data : List UInt8) :
    ∃ k', udp_pending_recv k place u s data = some k' ∧ Kept (k',a.record (.delivered (.udp u) data)) := by
  obtain ⟨wired,content,owned,accounted⟩ := kept
  have holds : Holds k.heap s.pending (content (.pending u)) := by
    have := owned.holds (.pending u)
    simpa [buffer,here] using this
  obtain ⟨h',b',received,after,replaced⟩ := udp_pending_spec holds fresh data
  refine ⟨_,by rw [udp_pending_recv,received],?_,?_⟩
  · have wired' := @wired_setUdp_same k wired u s { s with pending := b' } here rfl rfl rfl
    exact ⟨wired'.binds,wired'.udp,wired'.tcp,wired'.socket,wired'.queue,wired'.apart⟩
  · refine ⟨update content (.pending u) (content (.pending u) ++ data),?_,?_⟩
    · have same : (buffer k (.pending u)).data = s.pending.data := by simp [buffer,here]
      change Owned h' (buffer (setUdp k u { s with pending := b' })) _
      rw [buffer_setUdp]
      exact owned_replaced owned after (by rw [same]; exact replaced)
    · have counted := @accounted_child k a content accounted u s { s with pending := b' } wired here pending data
      exact ⟨counted.socket,counted.child,counted.no_udp,counted.no_tcp,counted.no_socket⟩

theorem call_recv_spec {u : Nat} {s : UdpSocket} (here : k.udp_socket_at u = some s) (data : List UInt8) :
    ∃ k', call_recv k place u data = some k' ∧ Kept (k',a.record (.delivered (.udp u) data)) := by
  unfold call_recv
  rw [here]
  obtain pending | ⟨recv,socket,above,layer⟩ := kept.wired.udp u s here
  · simp only [pending]
    exact udp_pending_recv_spec kept fresh here pending data
  · simp only [recv]
    rw [← layer]
    exact socket_receive_spec kept fresh above data

end

/-! ### Datagrams -/

/-- What the walk finds are sockets. -/
theorem route_spec {socket_at : Nat → Option UdpSocket} {binds : List Nat}
    (bound : ∀ u ∈ binds, u ≠ 0 → ∃ s, socket_at u = some s) (to_ : Addresses) {listener : Nat}
    (before : listener ≠ 0 → ∃ l, socket_at listener = some l) :
    ∃ u l, route socket_at to_ binds listener = some (u,l) ∧ (u ≠ 0 → ∃ s, socket_at u = some s) ∧
      (l ≠ 0 → ∃ s, socket_at l = some s) := by
  induction binds generalizing listener with
  | nil => exact ⟨0,listener,rfl,fun nonnull => absurd rfl nonnull,before⟩
  | cons p rest ih =>
    have later := fun u member => bound u (List.mem_cons_of_mem p member)
    unfold route
    by_cases null : p = 0
    · rw [if_pos null]
      exact ih later before
    · rw [if_neg null]
      obtain ⟨b,found⟩ := bound p List.mem_cons_self null
      rw [found]
      simp only
      by_cases connects : connected b to_
      · rw [if_pos connects]
        exact ⟨p,listener,rfl,fun _ => ⟨b,found⟩,before⟩
      · rw [if_neg connects]
        refine ih later ?_
        split
        · exact fun _ => ⟨b,found⟩
        · exact before

theorem mem_udp_bind {binds : List Nat} {v : Nat} (member : v ∈ udp_bind binds u) : v = u ∨ v ∈ binds := by
  unfold udp_bind at member
  induction binds with
  | nil => exact .inl (by simpa [store_first] using member)
  | cons q rest ih =>
    unfold store_first at member
    split at member
    · obtain here | later := List.mem_cons.1 member
      · exact .inl here
      · exact .inr (List.mem_cons_of_mem _ later)
    · obtain here | later := List.mem_cons.1 member
      · exact .inr (here ▸ List.mem_cons_self)
      · exact (ih later).imp id (List.mem_cons_of_mem _)

/-- An owner that is not there has no bytes. -/
theorem no_content {o : Owner} (owned : Owned k.heap (buffer k) content) (none : buffer k o = ⟨0,0⟩) : content o = [] := by
  have holds := owned.holds o
  rw [none] at holds
  exact List.length_eq_zero_iff.1 holds.1.symm

/-- Nothing of the account is about a socket's queue. -/
theorem accounted_setUdp (accounted : Accounted k a content) {s s' : UdpSocket} (here : k.udp_socket_at u = some s)
    (recv : s'.recv = s.recv) : Accounted (setUdp k u s') a content := by
  refine ⟨accounted.socket,?_,?_,accounted.no_tcp,accounted.no_socket⟩
  · intro v t found pending
    rw [setUdp_udp] at found
    split at found
    · rename_i same
      obtain rfl := some.inj found
      rw [same]
      exact accounted.child u s here (recv.symm.trans pending)
    · exact accounted.child v t found pending
  · intro v none
    rw [setUdp_udp] at none
    split at none
    · cases none
    · exact accounted.no_udp v none

theorem buffer_setUdp_same {s s' : UdpSocket} (here : k.udp_socket_at u = some s) (pending : s'.pending = s.pending) :
    buffer (setUdp k u s') = buffer k := by
  rw [buffer_setUdp,update_eq_self_iff,pending]
  simp [buffer,here]

/-- A socket's queue changes. -/
theorem kept_setQueue (kept : Kept (k,a)) {s : UdpSocket} {queue : List Nat} (here : k.udp_socket_at u = some s)
    (distinct : queue.Nodup) (wait : ∀ c ∈ queue, Waiting k c) (alone : ∀ l t, l ≠ u → k.udp_socket_at l = some t →
      List.Disjoint queue t.accept_queue) : Kept (setUdp k u { s with accept_queue := queue },a) := by
  obtain ⟨wired,content,owned,accounted⟩ := kept
  refine ⟨wired_setUdp wired here rfl rfl distinct wait alone,content,?_,accounted_setUdp accounted here rfl⟩
  have same : buffer (setUdp k u { s with accept_queue := queue }) = buffer k := buffer_setUdp_same here rfl
  rw [← same] at owned
  exact owned

/-- A child that was not there before. -/
theorem kept_child (kept : Kept (k,a)) {child : UdpSocket} (unused : k.udp_socket_at u = none)
    (recv : child.recv = .udp_pending_recv) (queue : child.accept_queue = []) (pending : child.pending = ⟨0,0⟩)
    {binds : List Nat} (bound : ∀ v ∈ binds, v = u ∨ v ∈ k.binds) : Kept ({ setUdp k u child with binds := binds },a) := by
  obtain ⟨wired,content,owned,accounted⟩ := kept
  refine ⟨wired_child wired unused recv queue bound,content,?_,?_⟩
  · change Owned k.heap (buffer (setUdp k u child)) content
    have same : buffer (setUdp k u child) = buffer k := by
      rw [buffer_setUdp,update_eq_self_iff,pending]
      simp [buffer,unused]
    rw [same]
    exact owned
  · refine ⟨accounted.socket,?_,?_,accounted.no_tcp,accounted.no_socket⟩
    · intro v t found waits
      change (setUdp k u child).udp_socket_at v = some t at found
      rw [setUdp_udp] at found
      split at found
      · rename_i same
        rw [same,no_content owned (by simp [buffer,unused] : buffer k (.pending u) = ⟨0,0⟩)]
        exact accounted.no_udp u unused
      · exact accounted.child v t found waits
    · intro v none
      change (setUdp k u child).udp_socket_at v = .none at none
      rw [setUdp_udp] at none
      split at none
      · cases none
      · exact accounted.no_udp v none

theorem make_child_spec (kept : Kept (k,a)) {listener : Nat} {l : UdpSocket} (nonnull : u ≠ 0)
    (unused : k.udp_socket_at u = none) (here : k.udp_socket_at listener = some l) (sender : Addresses) :
    ∃ k' child, make_child k u listener sender = some k' ∧ Kept (k',a) ∧ k'.udp_socket_at u = some child ∧ k'.heap = k.heap := by
  have other : listener ≠ u := by
    rintro rfl
    rw [unused] at here
    cases here
  have new (v : Nat) (s : UdpSocket) (found : k.udp_socket_at v = some s) : u ∉ s.accept_queue := by
    intro member
    obtain ⟨-,t,at_u,-⟩ := (kept.wired.queue v s found).2 u member
    rw [unused] at at_u
    cases at_u
  obtain ⟨child,is⟩ : ∃ child : UdpSocket, child = {
      remote_port := sender.src_port, local_port := l.local_port, remote_ip := sender.srcIP, local_ip := l.local_ip,
      listening := false, data := 0, recv := .udp_pending_recv, accept_queue := [], pending := ⟨0,0⟩ } := ⟨_,rfl⟩
  have born : Kept ({ setUdp k u child with binds := udp_bind k.binds u },a) :=
    kept_child kept unused (by rw [is]) (by rw [is]) (by rw [is]) (fun v member => mem_udp_bind member)
  have still : ({ setUdp k u child with binds := udp_bind k.binds u } : Kernel).udp_socket_at listener = some l := by
    change (setUdp k u child).udp_socket_at listener = some l
    rw [setUdp_udp,if_neg other,here]
  have at_child : ({ setUdp k u child with binds := udp_bind k.binds u } : Kernel).udp_socket_at u = some child :=
    if_pos rfl
  obtain ⟨distinct,wait⟩ := born.wired.queue listener l still
  refine ⟨setUdp { setUdp k u child with binds := udp_bind k.binds u } listener { l with accept_queue := l.accept_queue ++ [u] },
    child,?_,kept_setQueue born still ?_ ?_ ?_,?_,rfl⟩
  · rw [make_child,here,is]
  · refine List.nodup_append.2 ⟨distinct,List.nodup_singleton u,?_⟩
    rintro c member d single rfl
    rw [List.mem_singleton.1 single] at member
    exact new listener l here member
  · intro c member
    obtain old | single := List.mem_append.1 member
    · exact wait c old
    · rw [List.mem_singleton.1 single]
      exact ⟨nonnull,child,at_child,by rw [is]⟩
  · intro v t apart found
    refine List.disjoint_append_left.2 ⟨born.wired.apart listener v l t apart.symm still found,List.singleton_disjoint.2 ?_⟩
    change (setUdp k u child).udp_socket_at v = some t at found
    rw [setUdp_udp] at found
    split at found
    · rw [← some.inj found,is]
      exact List.not_mem_nil
    · exact new v t found
  · rw [setUdp_udp,if_neg other.symm,at_child]

theorem udp_ipv4_recv_spec (kept : Kept (k,a)) (unused : Unused k blocks) (srcIP dstIP : Word) (payload : List UInt8) :
    ∃ k' event, udp_ipv4_recv k blocks srcIP dstIP payload = some (k',event) ∧ Kept (k',a.record event) := by
  unfold udp_ipv4_recv
  by_cases short : payload.length < 8
  · exact ⟨k,.nothing,if_pos short,kept⟩
  rw [if_neg short]
  obtain ⟨u,l,found,socket,listener⟩ :=
    @route_spec _ _ kept.wired.binds (addresses srcIP dstIP payload) 0 (fun nonnull => absurd rfl nonnull)
  rw [found]
  simp only
  by_cases new : u = 0 ∧ l ≠ 0
  · rw [if_pos new]
    obtain ⟨t,listens⟩ := listener new.2
    obtain ⟨k',child,made,kept',at_child,heap⟩ := make_child_spec kept unused.udp_socket.1 unused.udp_socket.2 listens
      (addresses srcIP dstIP payload)
    have fresh : Fresh k'.heap blocks.data := by
      rw [heap]
      exact unused.data
    obtain ⟨k'',received,kept''⟩ := call_recv_spec kept' fresh at_child (payload.drop 8)
    rw [made]
    simp only
    rw [received]
    exact ⟨k'',_,rfl,kept''⟩
  · rw [if_neg new]
    by_cases nobody : u = 0
    · rw [if_pos nobody]
      exact ⟨k,.nothing,rfl,kept⟩
    · rw [if_neg nobody]
      obtain ⟨t,bound⟩ := socket nobody
      obtain ⟨k',received,kept'⟩ := call_recv_spec kept unused.data bound (payload.drop 8)
      rw [received]
      exact ⟨k',_,rfl,kept'⟩

/-! ### New sockets -/

/-- A UDP socket that had no socket yet gets a new one. -/
theorem wired_attach (wired : Wired k) {p : Nat} {s' : UdpSocket} {socket : Socket} (layer : socket.layer = .udp u)
    (recv : s'.recv = .socket_udp_recv) (data : s'.data = p) (free : k.socket_at p = none)
    (alone : ∀ s, k.udp_socket_at u = some s → s.recv = .udp_pending_recv)
    (queue : s'.accept_queue = (k.udp_socket_at u).elim [] UdpSocket.accept_queue)
    (unqueued : ∀ l s, k.udp_socket_at l = some s → u ∉ s.accept_queue) {binds : List Nat}
    (bound : ∀ v ∈ binds, v = u ∨ v ∈ k.binds) : Wired { setSocket (setUdp k u s') p socket with binds := binds } := by
  have udp_at (v : Nat) : (setSocket (setUdp k u s') p socket).udp_socket_at v = if v = u then some s' else k.udp_socket_at v :=
    rfl
  have socket_at (q : Nat) : (setSocket (setUdp k u s') p socket).socket_at q = if q = p then some socket else k.socket_at q :=
    rfl
  have other {q : Nat} {t : Socket} (found : k.socket_at q = some t) : q ≠ p := by
    rintro rfl
    rw [free] at found
    cases found
  have queue_of {v : Nat} {t' : UdpSocket} (found : (setSocket (setUdp k u s') p socket).udp_socket_at v = some t') :
      t'.accept_queue = (k.udp_socket_at v).elim [] UdpSocket.accept_queue := by
    rw [udp_at] at found
    split at found
    · rename_i same
      rw [← some.inj found,queue,same]
    · rw [found]
      rfl
  refine ⟨?_,?_,?_,?_,?_,?_⟩
  · intro v member nonnull
    change ∃ t, (setSocket (setUdp k u s') p socket).udp_socket_at v = some t
    rw [udp_at]
    split
    · exact ⟨s',rfl⟩
    · rename_i different
      exact wired.binds v ((bound v member).resolve_left different) nonnull
  · intro v t found
    change (setSocket (setUdp k u s') p socket).udp_socket_at v = some t at found
    rw [udp_at] at found
    split at found
    · rename_i same
      obtain rfl := some.inj found
      exact .inr ⟨recv,socket,by rw [data]; exact if_pos rfl,same ▸ layer⟩
    · obtain pending | ⟨recv',t',above,layer'⟩ := wired.udp v t found
      · exact .inl pending
      · exact .inr ⟨recv',t',(if_neg (other above)).trans above,layer'⟩
  · intro t q found
    obtain ⟨t',above,layer'⟩ := wired.tcp t q found
    exact ⟨t',(if_neg (other above)).trans above,layer'⟩
  · intro q t found
    change (setSocket (setUdp k u s') p socket).socket_at q = some t at found
    rw [socket_at] at found
    split at found
    · rename_i same
      obtain rfl := some.inj found
      rw [layer,same]
      exact ⟨s',if_pos rfl,recv,data⟩
    · have backed := wired.socket q t found
      cases layer' : t.layer with
      | udp v =>
        rw [layer'] at backed
        obtain ⟨t',found',recv',data'⟩ := backed
        have different : v ≠ u := by
          rintro rfl
          rw [alone t' found'] at recv'
          cases recv'
        exact ⟨t',(if_neg different).trans found',recv',data'⟩
      | tcp v =>
        rw [layer'] at backed
        exact backed
  · intro l t' found
    rw [queue_of found]
    cases before : k.udp_socket_at l with
    | none => exact ⟨List.nodup_nil,fun c member => absurd member List.not_mem_nil⟩
    | some t =>
      refine ⟨(wired.queue l t before).1,fun c member => ?_⟩
      obtain ⟨nonnull,child,found',pending⟩ := (wired.queue l t before).2 c member
      have different : c ≠ u := by
        rintro rfl
        exact unqueued l t before member
      exact ⟨nonnull,child,(if_neg different).trans found',pending⟩
  · intro l l' t t' different found found'
    rw [queue_of found,queue_of found']
    cases before : k.udp_socket_at l with
    | none => exact List.disjoint_nil_left _
    | some s =>
      cases before' : k.udp_socket_at l' with
      | none => exact List.disjoint_nil_right _
      | some t => exact wired.apart l l' s t different before before'

/-- The bytes that were delivered before wait in the new socket. -/
theorem accounted_attach (accounted : Accounted k a content) {p : Nat} {s' : UdpSocket} {socket : Socket}
    {content' : Owner → List UInt8} (layer : socket.layer = .udp u) (recv : s'.recv = .socket_udp_recv)
    (free : k.socket_at p = none)
    (waits : a.delivered (.udp u) = content' (.received p)) (sockets : ∀ q, q ≠ p → content' (.received q) = content (.received q))
    (children : ∀ v, v ≠ u → content' (.pending v) = content (.pending v)) :
    Accounted (setSocket (setUdp k u s') p socket) a content' := by
  constructor
  · intro q t found
    rw [setSocket_socket] at found
    split at found
    · rename_i same
      obtain rfl := some.inj found
      rw [same,accounted.no_socket p free,layer,waits,List.nil_append]
    · rename_i different
      rw [sockets q different]
      exact accounted.socket q t found
  · intro v t found pending
    rw [setSocket_udp,setUdp_udp] at found
    split at found
    · rw [← some.inj found,recv] at pending
      cases pending
    · rename_i different
      rw [children v different]
      exact accounted.child v t found pending
  · intro v none
    rw [setSocket_udp,setUdp_udp] at none
    split at none
    · cases none
    · exact accounted.no_udp v none
  · exact accounted.no_tcp
  · intro q none
    rw [setSocket_socket] at none
    split at none
    · cases none
    · exact accounted.no_socket q none

/-- The counters and the table of the socket manager are no part of it. -/
theorem kept_same {k' : Kernel} (kept : Kept (k,a)) (heap : k'.heap = k.heap) (binds : k'.binds = k.binds)
    (udp : k'.udp_socket_at = k.udp_socket_at) (tcp : k'.tcp_socket_at = k.tcp_socket_at)
    (socket : k'.socket_at = k.socket_at) : Kept (k',a) := by
  obtain ⟨⟨bound,at_udp,at_tcp,at_socket,queue,apart⟩,content,⟨holds,alone⟩,counted⟩ := kept
  cases k
  cases k'
  subst heap binds udp tcp socket
  exact ⟨⟨bound,at_udp,at_tcp,at_socket,queue,apart⟩,content,⟨holds,alone⟩,
    ⟨counted.socket,counted.child,counted.no_udp,counted.no_tcp,counted.no_socket⟩⟩

/-- A child in a queue is not missing. -/
theorem unused_unqueued (wired : Wired k) (unused : k.udp_socket_at u = none) (l : Nat) (s : UdpSocket)
    (found : k.udp_socket_at l = some s) : u ∉ s.accept_queue := by
  intro member
  obtain ⟨-,t,at_u,-⟩ := (wired.queue l s found).2 u member
  rw [unused] at at_u
  cases at_u

/-- A new UDP socket with its socket. -/
theorem kept_connect (kept : Kept (k,a)) {p : Nat} {s' : UdpSocket} {socket : Socket} (unused : k.udp_socket_at u = none)
    (free : k.socket_at p = none) (layer : socket.layer = .udp u) (received : socket.received = ⟨0,0⟩)
    (recv : s'.recv = .socket_udp_recv) (data : s'.data = p) (queue : s'.accept_queue = []) (pending : s'.pending = ⟨0,0⟩)
    {binds : List Nat} (bound : ∀ v ∈ binds, v = u ∨ v ∈ k.binds) :
    Kept ({ setSocket (setUdp k u s') p socket with binds := binds },a) := by
  obtain ⟨wired,content,owned,accounted⟩ := kept
  refine ⟨wired_attach wired layer recv data free ?_ ?_ (unused_unqueued wired unused) bound,content,?_,?_⟩
  · intro s found
    rw [unused] at found
    cases found
  · rw [queue,unused]
    rfl
  · have same : buffer (setSocket (setUdp k u s') p socket) = buffer k := by
      rw [buffer_setSocket,received,update_eq_self_iff.2,buffer_setUdp,pending,update_eq_self_iff]
      · simp [buffer,unused]
      · simp [buffer,free]
    change Owned k.heap (buffer (setSocket (setUdp k u s') p socket)) content
    rw [same]
    exact owned
  · have counted : Accounted (setSocket (setUdp k u s') p socket) a content := by
      refine accounted_attach accounted layer recv free ?_ (fun _ _ => rfl) (fun _ _ => rfl)
      rw [accounted.no_udp u unused,no_content owned (by simp [buffer,free] : buffer k (.received p) = ⟨0,0⟩)]
    exact ⟨counted.socket,counted.child,counted.no_udp,counted.no_tcp,counted.no_socket⟩

section
variable (kept : Kept (k,a)) {blocks : Blocks} (unused : Unused k blocks)
include kept unused

theorem socket_connect_udp_spec (config_ip ip : Word)
    (port : BitVec 16) : Kept (socket_connect_udp k blocks config_ip ip port,a) := by
  have connected : Kept ({ setSocket (setUdp k blocks.udp_socket ⟨swap16 port,swap16 (BitVec.ofNat 16 k.free_port),ip,config_ip,
      false,blocks.socket,.socket_udp_recv,[],⟨0,0⟩⟩) blocks.socket ⟨.udp blocks.udp_socket,k.curr_socket + 1,⟨0,0⟩⟩ with
      binds := udp_bind k.binds blocks.udp_socket },a) :=
    kept_connect kept unused.udp_socket.2 unused.socket.2 rfl rfl rfl rfl rfl rfl (fun _ member => mem_udp_bind member)
  exact kept_same connected rfl rfl rfl rfl rfl

theorem socket_listen_spec (config_ip : Word) (port : BitVec 16) : Kept (socket_listen k blocks config_ip port,a) := by
  have listening : Kept ({ setSocket (setUdp k blocks.udp_socket ⟨0,swap16 port,0,config_ip,true,blocks.socket,
      .socket_udp_recv,[],⟨0,0⟩⟩) blocks.socket ⟨.udp blocks.udp_socket,k.curr_socket + 1,⟨0,0⟩⟩ with
      binds := udp_bind k.binds blocks.udp_socket },a) :=
    kept_connect kept unused.udp_socket.2 unused.socket.2 rfl rfl rfl rfl rfl rfl (fun _ member => mem_udp_bind member)
  exact kept_same listening rfl rfl rfl rfl rfl

theorem socket_connect_tcp_spec : Kept (socket_connect_tcp k blocks,a) := by
  obtain ⟨wired,content,owned,accounted⟩ := kept
  obtain ⟨p,is_p⟩ : ∃ p, p = blocks.socket := ⟨_,rfl⟩
  obtain ⟨t,is_t⟩ : ∃ t, t = blocks.tcp_socket := ⟨_,rfl⟩
  have free : k.socket_at p = none := is_p ▸ unused.socket.2
  have no_tcp : k.tcp_socket_at t = none := is_t ▸ unused.tcp_socket.2
  unfold socket_connect_tcp
  rw [← is_p,← is_t]
  have other {q : Nat} {s : Socket} (found : k.socket_at q = some s) : q ≠ p := by
    rintro rfl
    rw [free] at found
    cases found
  refine ⟨⟨wired.binds,?_,?_,?_,wired.queue,wired.apart⟩,content,?_,⟨?_,accounted.child,accounted.no_udp,?_,?_⟩⟩
  · intro u s found
    obtain pending | ⟨recv,socket,above,layer⟩ := wired.udp u s found
    · exact .inl pending
    · exact .inr ⟨recv,socket,(if_neg (other above)).trans above,layer⟩
  · intro t' q found
    change (if t' = t then some p else k.tcp_socket_at t') = some q at found
    split at found
    · rename_i same
      rw [← some.inj found,same]
      exact ⟨_,if_pos rfl,rfl⟩
    · obtain ⟨socket,above,layer⟩ := wired.tcp t' q found
      exact ⟨socket,(if_neg (other above)).trans above,layer⟩
  · intro q s found
    change (if q = p then some _ else k.socket_at q) = some s at found
    split at found
    · rename_i same
      rw [← some.inj found,same]
      exact if_pos rfl
    · have backed := wired.socket q s found
      cases layer : s.layer with
      | udp u =>
        rw [layer] at backed
        exact backed
      | tcp t' =>
        rw [layer] at backed
        have different : t' ≠ t := by
          rintro rfl
          cases no_tcp.symm.trans backed
        exact (if_neg different).trans backed
  · have same : buffer (setSocket k p ⟨.tcp t,k.curr_socket + 1,⟨0,0⟩⟩) = buffer k := by
      rw [buffer_setSocket,update_eq_self_iff]
      simp [buffer,free]
    change Owned k.heap (buffer (setSocket k p ⟨.tcp t,k.curr_socket + 1,⟨0,0⟩⟩)) content
    rw [same]
    exact owned
  · intro q s found
    change (if q = p then some _ else k.socket_at q) = some s at found
    split at found
    · rename_i same
      rw [← some.inj found,same,accounted.no_socket p free,
        no_content owned (by simp [buffer,free] : buffer k (.received p) = ⟨0,0⟩)]
      exact accounted.no_tcp t no_tcp
    · exact accounted.socket q s found
  · intro t' none
    change (if t' = t then some p else k.tcp_socket_at t') = .none at none
    split at none
    · cases none
    · exact accounted.no_tcp t' none
  · intro q none
    change (if q = p then some _ else k.socket_at q) = .none at none
    split at none
    · cases none
    · exact accounted.no_socket q none

end

/-! ### Accepting -/

/-- A child leaves the queue of a listening socket; it is in no queue then. -/
theorem udp_accept_spec (kept : Kept (k,a)) {l : Nat} {s : UdpSocket} (here : k.udp_socket_at l = some s) (state : AsyncState) :
    ∃ k' child state', udp_accept k l state = some (k',child,state') ∧ Kept (k',a) ∧ k'.socket_at = k.socket_at ∧
      (child ≠ 0 → ∃ c, k'.udp_socket_at child = some c ∧ c.recv = .udp_pending_recv ∧
        ∀ v t, k'.udp_socket_at v = some t → child ∉ t.accept_queue) := by
  unfold udp_accept
  rw [here]
  simp only
  by_cases polls : state = STATE_INIT ∨ state = STATE_WAIT
  swap
  · rw [if_neg polls]
    exact ⟨k,0,state,rfl,kept,rfl,fun nonnull => absurd rfl nonnull⟩
  rw [if_pos polls]
  obtain ⟨distinct,wait⟩ := kept.wired.queue l s here
  cases queue : s.accept_queue with
  | nil => exact ⟨k,0,STATE_WAIT,rfl,kept,rfl,fun nonnull => absurd rfl nonnull⟩
  | cons child rest =>
    rw [queue] at distinct wait
    obtain ⟨-,c,found,pending⟩ := wait child List.mem_cons_self
    have apart (v : Nat) (t : UdpSocket) (other : v ≠ l) (found : k.udp_socket_at v = some t) :
        List.Disjoint (child :: rest) t.accept_queue := by
      rw [← queue]
      exact kept.wired.apart l v s t other.symm here found
    refine ⟨_,child,STATE_DONE,rfl,?_,rfl,fun _ => ?_⟩
    · refine kept_setQueue kept here (List.nodup_cons.1 distinct).2 (fun c member => wait c (List.mem_cons_of_mem _ member)) ?_
      exact fun v t other found => List.disjoint_of_disjoint_cons_left (apart v t other found)
    · have unqueued (v : Nat) (t : UdpSocket) (found : (setUdp k l { s with accept_queue := rest }).udp_socket_at v = some t) :
          child ∉ t.accept_queue := by
        rw [setUdp_udp] at found
        split at found
        · rw [← some.inj found]
          exact (List.nodup_cons.1 distinct).1
        · rename_i other
          exact fun member => apart v t other found List.mem_cons_self member
      by_cases itself : child = l
      · rw [itself,here] at found
        obtain rfl := some.inj found
        exact ⟨{ s with accept_queue := rest },by rw [setUdp_udp,if_pos itself],pending,unqueued⟩
      · exact ⟨c,by rw [setUdp_udp,if_neg itself,found],pending,unqueued⟩

/-- The pending data of a child waits in its new socket. -/
theorem adopt_child_spec (kept : Kept (k,a)) {p child : Nat} {c : UdpSocket} (free : k.socket_at p = none)
    (here : k.udp_socket_at child = some c) (pending : c.recv = .udp_pending_recv)
    (unqueued : ∀ v t, k.udp_socket_at v = some t → child ∉ t.accept_queue) :
    ∃ k', adopt_child k p child = some k' ∧ Kept (k',a) := by
  obtain ⟨wired,content,owned,accounted⟩ := kept
  obtain ⟨s',is⟩ : ∃ s' : UdpSocket, s' = { c with data := p, recv := .socket_udp_recv, pending := ⟨0,0⟩ } := ⟨_,rfl⟩
  obtain ⟨socket,new⟩ : ∃ socket : Socket, socket = ⟨.udp child,k.curr_socket + 1,c.pending⟩ := ⟨_,rfl⟩
  have attached : Kept (setSocket (setUdp k child s') p socket,a) := by
    refine ⟨wired_attach wired (by rw [new]) (by rw [is]) (by rw [is]) free ?_ (by rw [is,here]; rfl) unqueued
      (fun v member => .inr member),
      update (update content (.received p) (content (.pending child))) (.pending child) [],?_,?_⟩
    · intro t found
      rw [here] at found
      rw [← some.inj found]
      exact pending
    · have moved := owned_moved owned (.pending child) (.received p)
      have pending_at : buffer k (.pending child) = c.pending := by simp [buffer,here]
      rw [show buffer (k,a).1 (.pending child) = c.pending from pending_at] at moved
      change Owned k.heap (buffer (setSocket (setUdp k child s') p socket)) _
      rw [buffer_setSocket,buffer_setUdp,new,is,Function.update_comm (by simp)]
      exact moved
    · refine accounted_attach accounted (by rw [new]) (by rw [is]) free ?_ ?_ ?_
      · rw [update_of_ne (by simp),update_self]
        exact accounted.child child c here pending
      · intro q other
        rw [update_of_ne (by simp),update_of_ne (by simpa using other)]
      · intro v other
        rw [update_of_ne (by simpa using other),update_of_ne (by simp)]
  unfold adopt_child
  rw [here]
  simp only
  by_cases data : c.pending.data ≠ 0
  · rw [if_pos data]
    refine ⟨_,rfl,kept_same attached rfl rfl ?_ rfl ?_⟩
    · rw [is]
      rfl
    · funext q
      simp only [setSocket_socket,setUdp_socket,socket_create,new]
      split <;> rfl
  · rw [if_neg data]
    -- Without a block there are no bytes either.
    have none : c.pending = ⟨0,0⟩ := by
      have null : c.pending.data = 0 := by omega
      obtain ⟨length,⟨-,empty⟩ | ⟨nonnull,-⟩⟩ := owned.holds (.pending child)
      · rw [empty] at length
        simp only [buffer,here] at length
        calc c.pending = ⟨c.pending.data,c.pending.len⟩ := rfl
          _ = ⟨0,0⟩ := by rw [null]; congr 1
      · simp [buffer,here,null] at nonnull
    refine ⟨_,rfl,kept_same attached rfl rfl ?_ rfl ?_⟩
    · rw [is,← none]
      rfl
    · rw [new,none]
      rfl

theorem socket_accept_spec (kept : Kept (k,a)) (unused : Unused k blocks) {p l : Nat} {listener : Socket}
    (here : k.socket_at p = some listener) (layer : listener.layer = .udp l) (state : AsyncState) :
    ∃ k', socket_accept k blocks listener state = some k' ∧ Kept (k',a) := by
  have backed := kept.wired.socket p listener here
  rw [layer] at backed
  obtain ⟨s,listens,-⟩ := backed
  obtain ⟨k',child,state',polled,kept',same,queued⟩ := udp_accept_spec kept listens state
  unfold socket_accept
  rw [layer]
  simp only
  rw [polled]
  simp only
  by_cases done : state' = STATE_DONE ∧ child ≠ 0
  · rw [if_pos done]
    obtain ⟨c,found,pending,unqueued⟩ := queued done.2
    exact adopt_child_spec kept' (by rw [same]; exact unused.socket.2) found pending unqueued
  · rw [if_neg done]
    exact ⟨k',rfl,kept'⟩

/-! ### Calls -/

theorem accounted_return (accounted : Accounted k a content) {p : Nat} {socket s' : Socket}
    (here : k.socket_at p = some socket) (layer : s'.layer = socket.layer) {data rest : List UInt8}
    (parts : content (.received p) = data ++ rest) :
    Accounted (setSocket k p s') (a.record (.returned p data)) (update content (.received p) rest) := by
  constructor
  · intro q t found
    rw [setSocket_socket] at found
    by_cases same : q = p
    · rw [if_pos same] at found
      obtain rfl := some.inj found
      simp only [Account.record,layer,same,update_self]
      rw [accounted.socket p socket here,parts,List.append_assoc]
    · rw [if_neg same] at found
      have other : Owner.received q ≠ .received p := by simpa using same
      simp only [Account.record,update_of_ne same,update_of_ne other]
      exact accounted.socket q t found
  · intro u t found pending
    rw [update_of_ne (by simp)]
    exact accounted.child u t found pending
  · exact accounted.no_udp
  · exact accounted.no_tcp
  · intro q none
    rw [setSocket_socket] at none
    split at none
    · cases none
    · rename_i other
      simp only [Account.record,update_of_ne other]
      exact accounted.no_socket q none

theorem record_nothing_returned (a : Account) (p : Nat) : a.record (.returned p []) = a := by
  simp [Account.record]

theorem socket_recv_spec (kept : Kept (k,a)) {p : Nat} {socket : Socket} (here : k.socket_at p = some socket)
    (state : AsyncState) (size : Word) : ∃ k' data state', socket_recv k p socket state size = some (k',data,state') ∧
      Kept (k',a.record (.returned p data)) := by
  unfold socket_recv
  by_cases waits : state = STATE_WAIT
  swap
  · rw [if_neg waits]
    split
    · exact ⟨k,[],_,rfl,by rw [record_nothing_returned]; exact kept⟩
    · exact ⟨k,[],_,rfl,by rw [record_nothing_returned]; exact kept⟩
  rw [if_pos waits]
  by_cases some_bytes : socket.received.len ≠ 0
  swap
  · rw [if_neg some_bytes]
    exact ⟨k,[],_,rfl,by rw [record_nothing_returned]; exact kept⟩
  rw [if_pos some_bytes]
  obtain ⟨wired,content,owned,accounted⟩ := kept
  have holds := holds_received owned here
  obtain ⟨n,is⟩ : ∃ n, n = if socket.received.len > size.toNat then size.toNat else socket.received.len := ⟨_,rfl⟩
  have most : n ≤ socket.received.len := by
    rw [is]
    split <;> omega
  obtain ⟨h',moved,after,replaced⟩ := holds_dropped holds most some_bytes
  simp only [← is]
  rw [holds_out holds most]
  simp only
  rw [moved]
  refine ⟨_,_,_,rfl,?_⟩
  exact kept_received wired owned here after replaced
    (accounted_return accounted here (by rfl) (List.take_append_drop n _).symm)

/-- Calls that the kernel does not refuse: ids of sockets, only UDP sockets accept, and only
    connected TCP sockets call their `recv`. -/
def Possible (k : Kernel) : Action → Prop
  | .segment tcp_socket _ => ∃ p, k.tcp_socket_at tcp_socket = some p
  | .sys_sock_accept socket_id _ => ∃ p listener l, socket_manager_find k socket_id = some p ∧ k.socket_at p = some listener ∧
      listener.layer = .udp l
  | .sys_sock_recv socket_id _ _ => ∃ p, socket_manager_find k socket_id = some p
  | .set_local_port udp_socket _ => ∃ s, k.udp_socket_at udp_socket = some s
  | _ => True

theorem act_spec (kept : Kept (k,a)) {blocks : Blocks} (unused : Unused k blocks) {action : Action}
    (possible : Possible k action) : ∃ k' event, act k blocks action = some (k',event) ∧ Kept (k',a.record event) := by
  cases action with
  | datagram srcIP dstIP payload => exact udp_ipv4_recv_spec kept unused srcIP dstIP payload
  | segment tcp_socket data =>
    obtain ⟨p,found⟩ := possible
    obtain ⟨socket,above,layer⟩ := kept.wired.tcp tcp_socket p found
    obtain ⟨k',received,kept'⟩ := socket_receive_spec kept unused.data above data
    rw [layer] at kept'
    exact ⟨k',_,by rw [act,socket_tcp_recv,found]; simp only; rw [received]; rfl,kept'⟩
  | connect_udp config_ip ip port => exact ⟨_,_,rfl,socket_connect_udp_spec kept unused config_ip ip port⟩
  | connect_tcp => exact ⟨_,_,rfl,socket_connect_tcp_spec kept unused⟩
  | listen config_ip port => exact ⟨_,_,rfl,socket_listen_spec kept unused config_ip port⟩
  | sys_sock_accept socket_id state =>
    obtain ⟨p,listener,l,found,above,layer⟩ := possible
    obtain ⟨k',accepted,kept'⟩ := socket_accept_spec kept unused above layer state
    exact ⟨k',.nothing,by rw [act,found,bind_some,above]; simp only; rw [accepted]; rfl,kept'⟩
  | sys_sock_recv socket_id state size =>
    obtain ⟨p,found⟩ := possible
    have present := List.find?_some found
    simp only [Bool.and_eq_true] at present
    obtain ⟨socket,above,-⟩ := Option.any_eq_true _ _ |>.1 present.2
    obtain ⟨k',data,state',received,kept'⟩ := socket_recv_spec kept above state size
    exact ⟨k',_,by rw [act,found]; simp only; rw [above]; simp only; rw [received]; rfl,kept'⟩
  | set_local_port udp_socket port =>
    obtain ⟨s,found⟩ := possible
    refine ⟨setUdp k udp_socket { s with local_port := swap16 port },.nothing,by rw [act,udp_set_local_port,found]; rfl,?_⟩
    obtain ⟨wired,content,owned,accounted⟩ := kept
    have same : buffer (setUdp k udp_socket { s with local_port := swap16 port }) = buffer k := buffer_setUdp_same found rfl
    rw [← same] at owned
    exact ⟨wired_setUdp_same wired found rfl rfl rfl,content,owned,accounted_setUdp accounted found rfl⟩

theorem act_possible {action : Action} {y : Kernel × Event} (acted : act k blocks action = some y) :
    Possible k action := by
  cases action with
  | datagram _ _ _ => trivial
  | segment tcp_socket data =>
    cases found : k.tcp_socket_at tcp_socket with
    | none => simp [act,socket_tcp_recv,found] at acted
    | some p => exact ⟨p,found⟩
  | connect_udp _ _ _ => trivial
  | connect_tcp => trivial
  | listen _ _ => trivial
  | sys_sock_accept socket_id state =>
    cases found : socket_manager_find k socket_id with
    | none => simp [act,found] at acted
    | some p =>
      cases above : k.socket_at p with
      | none => simp [act,found,above] at acted
      | some listener =>
        cases layer : listener.layer with
        | udp l => exact ⟨p,listener,l,found,above,layer⟩
        | tcp t => simp [act,found,above,socket_accept,layer] at acted
  | sys_sock_recv socket_id state size =>
    cases found : socket_manager_find k socket_id with
    | none => simp [act,found] at acted
    | some p => exact ⟨p,found⟩
  | set_local_port udp_socket port =>
    cases found : k.udp_socket_at udp_socket with
    | none => simp [act,udp_set_local_port,found] at acted
    | some s => exact ⟨s,found⟩

end

theorem reached_kept {x : Kernel × Account} (reached : Reached socket_system x) : Kept x := by
  refine reached_invariant ?_ ?_ reached
  · rintro ⟨k,a⟩ ⟨binds,-,udp,tcp,socket,account⟩
    simp only at binds udp tcp socket account
    have null : buffer k = fun _ => ⟨0,0⟩ := by
      funext o
      cases o <;> simp [buffer,udp,socket]
    refine ⟨⟨?_,?_,?_,?_,?_,?_⟩,fun _ => [],?_,?_⟩
    · simp [binds]
    · simp [udp]
    · simp [tcp]
    · simp [socket]
    · simp [udp]
    · simp [udp]
    · rw [null]
      exact ⟨fun _ => holds_null _,fun _ _ _ nonnull => absurd rfl nonnull⟩
    · rw [account]
      constructor <;> simp [udp,socket]
  · rintro ⟨k,a⟩ action ⟨k',a'⟩ kept ⟨blocks,event,unused,acted,recorded⟩
    obtain ⟨k'',event',acted',kept'⟩ := act_spec kept unused (act_possible acted)
    rw [acted'] at acted
    obtain ⟨rfl,rfl⟩ := Prod.mk.inj (some.inj acted)
    simp only at recorded
    rw [recorded]
    exact kept'

/-- For every socket, what was delivered to its UDP or TCP socket is what its receives
    returned, followed by what is in its receive buffer; and no call faults. -/
theorem socket_streams {x : Kernel × Account} (reached : Reached socket_system x) :
    (∀ p socket, x.1.socket_at p = some socket → x.2.returned p <+: x.2.delivered socket.layer ∧
      ∃ rest, memcpy_out x.1.heap socket.received.data socket.received.len = some rest ∧
        x.2.delivered socket.layer = x.2.returned p ++ rest) ∧
      ∀ blocks action, Unused x.1 blocks → Possible x.1 action → ∃ y, act x.1 blocks action = some y := by
  have kept := reached_kept reached
  constructor
  · intro p socket here
    obtain ⟨-,content,owned,accounted⟩ := kept
    have holds := holds_received owned here
    have parts := accounted.socket p socket here
    refine ⟨⟨_,parts.symm⟩,content (.received p),?_,parts⟩
    rw [holds_out holds (Nat.le_refl _),holds.1,List.take_length]
  · intro blocks action unused possible
    obtain ⟨k',event,acted,-⟩ := act_spec kept unused possible
    exact ⟨_,acted⟩

/-- A kernel without sockets. -/
def idle : Kernel := ⟨fun _ => none,[],1024,fun _ => none,fun _ => none,fun _ => none,[],0⟩

def after (k : Kernel) (blocks : Blocks) (action : Action) : Kernel := ((act k blocks action).map Prod.fst).getD k

/-- What the heap hands out for the sockets and for data, one block after the other. -/
def fresh_blocks (n : Nat) : Blocks := ⟨n,n,n,⟨n,fun _ => 0⟩⟩

def account_of (events : List Event) : Account := events.foldl Account.record ⟨fun _ => [],fun _ => []⟩

/-- A datagram to port 80 with these bytes. -/
def to_listener (data : List UInt8) : Action := .datagram 2 1 ([0x10,0,0,80,0,0,0,0] ++ data)

/-- A UDP socket listens; the first datagram makes its child and the second one comes before the child is accepted, a third one
    after that; then the task asks for one byte. -/
def listening : Kernel := after idle (fresh_blocks 1) (.listen 1 80)
def made_child : Kernel := after listening (fresh_blocks 2) (to_listener [65])
def pending_two : Kernel := after made_child (fresh_blocks 3) (to_listener [66])
def accepted : Kernel := after pending_two (fresh_blocks 4) (.sys_sock_accept 1 STATE_WAIT)
def received_three : Kernel := after accepted (fresh_blocks 5) (to_listener [67])
def returned_one : Kernel := after received_three (fresh_blocks 6) (.sys_sock_recv 2 STATE_WAIT 1)

theorem act_reached {x : Kernel × Account} (reached : Reached socket_system x) {blocks : Blocks} (unused : Unused x.1 blocks)
    {action : Action} {k : Kernel} {event : Event} (acted : act x.1 blocks action = some (k,event)) :
    Reached socket_system (k,x.2.record event) := by
  obtain ⟨start,actions,begins,run⟩ := reached
  exact ⟨start,actions ++ [action],begins,run_snoc run ⟨blocks,event,unused,acted,rfl⟩⟩

theorem returned_one_reached : Reached socket_system (returned_one,account_of [.nothing,.delivered (.udp 2) [65],
    .delivered (.udp 2) [66],.nothing,.delivered (.udp 2) [67],.returned 4 [65]]) := by
  have start : Reached socket_system (idle,account_of []) :=
    ⟨_,[],⟨rfl,rfl,fun _ => rfl,fun _ => rfl,fun _ => rfl,rfl⟩,.done _⟩
  have first := @act_reached _ start (fresh_blocks 1) ⟨⟨by decide,rfl⟩,⟨by decide,rfl⟩,⟨by decide,rfl⟩,⟨by decide,rfl⟩⟩
    (.listen 1 80) listening .nothing rfl
  have second := @act_reached _ first (fresh_blocks 2) ⟨⟨by decide,rfl⟩,⟨by decide,rfl⟩,⟨by decide,rfl⟩,⟨by decide,rfl⟩⟩
    (to_listener [65]) made_child (.delivered (.udp 2) [65]) rfl
  have third := @act_reached _ second (fresh_blocks 3) ⟨⟨by decide,rfl⟩,⟨by decide,rfl⟩,⟨by decide,rfl⟩,⟨by decide,rfl⟩⟩
    (to_listener [66]) pending_two (.delivered (.udp 2) [66]) rfl
  have fourth := @act_reached _ third (fresh_blocks 4) ⟨⟨by decide,rfl⟩,⟨by decide,rfl⟩,⟨by decide,rfl⟩,⟨by decide,rfl⟩⟩
    (.sys_sock_accept 1 STATE_WAIT) accepted .nothing rfl
  have fifth := @act_reached _ fourth (fresh_blocks 5) ⟨⟨by decide,rfl⟩,⟨by decide,rfl⟩,⟨by decide,rfl⟩,⟨by decide,rfl⟩⟩
    (to_listener [67]) received_three (.delivered (.udp 2) [67]) rfl
  exact @act_reached _ fifth (fresh_blocks 6) ⟨⟨by decide,rfl⟩,⟨by decide,rfl⟩,⟨by decide,rfl⟩,⟨by decide,rfl⟩⟩
    (.sys_sock_recv 2 STATE_WAIT 1) returned_one (.returned 4 [65]) rfl

/-- The first byte was returned, and the other ones wait. -/
theorem socket_streams_accepted : ∃ rest, memcpy_out returned_one.heap 5 2 = some rest ∧ [65,66,67] = [65] ++ rest :=
  ((socket_streams returned_one_reached).1 4 ⟨.udp 2,2,⟨5,2⟩⟩ rfl).2

end MicroOS.Sockets

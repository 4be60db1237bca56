import MicroOS.OpenFiles
import MicroOS.TcpDemux

/-!
The tables of bound TCP and UDP sockets while sockets are connected, closed by
their peers and disconnected. A socket is told by its address; `kmalloc` hands out
the address of a freed socket again. The account of the sockets that should be in
the tables runs beside them and no function reads it.
-/
namespace MicroOS.BindTables
open Runs OpenFiles TcpDemux

/-- `tcp_connect` stores into a NULL slot, or into the last slot of a new array with
    one slot more, whose other slots hold what `kmalloc` left there. -/
def tcp_bind (binds : List Nat) (socket : Nat) (garbage : Nat → Nat) : List Nat :=
  if 0 ∈ binds then (store_first socket binds).1 else (List.range binds.length).map garbage ++ [socket]

/-- `udp_connect`, `udp_listen` and the child of a listener: the new array is a copy. -/
def udp_bind (binds : List Nat) (socket : Nat) : List Nat := (store_first socket binds).1

/-- The loops of `tcp_ipv4_recv` and `tcp_socket_disconnect`. -/
def tcp_unbind (binds : List Nat) (socket : Nat) : List Nat := clear_first socket binds

/-- A poll of `udp_socket_disconnect`, and whether it is done: it is not while it
    finds the socket, which it frees then. -/
def udp_socket_disconnect (binds : List Nat) (socket : Nat) : List Nat × Bool :=
  if socket ∈ binds then (clear_first socket binds,false) else (binds,true)

/-- The slots of a provider, and the sockets that were bound and not disconnected. -/
structure Provider where
  binds : List Nat
  bound : List Nat

/-- Both providers, the TCP sockets that are out of the table but not freed, and the
    freed UDP sockets whose disconnect still polls. -/
structure Sockets where
  tcp : Provider
  udp : Provider
  closed : List Nat
  stale : List Nat

inductive Call where
  /-- The poll of `tcp_connect` that makes the socket. -/
  | tcp_connect (socket : Nat)
  /-- `tcp_ipv4_recv` finds the socket `CLOSED`. -/
  | tcp_close (socket : Nat)
  /-- `STATE_WAIT` of `tcp_socket_disconnect`, for a `CLOSED` socket. -/
  | tcp_disconnect (socket : Nat)
  /-- `udp_connect`, `udp_listen`, or a datagram for a listener. -/
  | udp_connect (socket : Nat)
  /-- A poll of `udp_socket_disconnect`, the first one for a socket or a later one. -/
  | udp_disconnect (socket : Nat) (later : Bool)

def perform (s : Sockets) (garbage : Nat → Nat) : Call → Sockets
  | .tcp_connect socket =>
    { s with tcp := ⟨tcp_bind s.tcp.binds socket garbage,socket :: s.tcp.bound⟩ }
  | .tcp_close socket =>
    { s with tcp := ⟨tcp_unbind s.tcp.binds socket,s.tcp.bound.erase socket⟩, closed := socket :: s.closed }
  | .tcp_disconnect socket =>
    { s with tcp := ⟨tcp_unbind s.tcp.binds socket,s.tcp.bound.erase socket⟩, closed := s.closed.erase socket }
  | .udp_connect socket => { s with udp := ⟨udp_bind s.udp.binds socket,socket :: s.udp.bound⟩ }
  | .udp_disconnect socket false =>
    { s with udp := ⟨(udp_socket_disconnect s.udp.binds socket).1,s.udp.bound.erase socket⟩, stale := socket :: s.stale }
  | .udp_disconnect socket true =>
    { s with
      udp := { s.udp with binds := (udp_socket_disconnect s.udp.binds socket).1 }
      stale := if (udp_socket_disconnect s.udp.binds socket).2 then s.stale.erase socket else s.stale }

/-- The sockets on the heap. -/
def allocated (s : Sockets) : List Nat := s.tcp.bound ++ s.closed ++ s.udp.bound

/-- `kmalloc` returns no NULL and no socket in use; a socket is closed, freed and
    polled by the one who has it. -/
def Possible (s : Sockets) : Call → Prop
  | .tcp_connect socket | .udp_connect socket => socket ≠ 0 ∧ socket ∉ allocated s
  | .tcp_close socket => socket ∈ s.tcp.bound
  | .tcp_disconnect socket => socket ∈ s.tcp.bound ∨ socket ∈ s.closed
  | .udp_disconnect socket false => socket ∈ s.udp.bound
  | .udp_disconnect socket true => socket ∈ s.stale

/-- `tcp_init` and `udp_init`. -/
def initial : Sockets := ⟨⟨[],[]⟩,⟨[],[]⟩,[],[]⟩

/-- Any sequence of the calls, with anything in fresh memory. -/
def socket_system : System Sockets Call where
  start s := s = initial
  step s call s' := Possible s call ∧ ∃ garbage, s' = perform s garbage call

/-- Every socket bound and not disconnected is in its table, once. -/
def Present (s : Sockets) : Prop :=
  (∀ p ∈ s.tcp.bound, s.tcp.binds.count p = 1) ∧ ∀ p ∈ s.udp.bound, s.udp.binds.count p = 1

/-- `tcp_connect` finds a NULL slot or no slots at all, and no later poll of a
    `udp_socket_disconnect` finds its socket's address bound again. -/
def Safe (s : Sockets) : Call → Prop
  | .tcp_connect _ => 0 ∈ s.tcp.binds ∨ s.tcp.binds = []
  | .udp_disconnect socket true => socket ∉ s.udp.bound
  | _ => True

/-- The occupied slots hold exactly the bound sockets. -/
def Listed (p : Provider) : Prop := (occupied p.binds).Perm p.bound

variable {socket : Nat} {s : Sockets}

theorem listed_mem {p : Provider} (listed : Listed p) : socket ∈ p.bound ↔ socket ∈ p.binds ∧ socket ≠ 0 := by
  rw [← List.Perm.mem_iff listed,occupied,List.mem_filter]
  simp

theorem listed_count {p : Provider} (listed : Listed p) (distinct : p.bound.Nodup)
    (member : socket ∈ p.bound) : p.binds.count socket = 1 := by
  have used : socket ≠ 0 := ((listed_mem listed).mp member).2
  calc p.binds.count socket = (occupied p.binds).count socket := by
        rw [occupied,List.count_filter (by simpa using used)]
    _ = p.bound.count socket := List.Perm.count_eq listed socket
    _ = 1 := List.count_eq_one_of_mem distinct member

theorem listed_stored {p : Provider} (listed : Listed p) (used : socket ≠ 0) :
    Listed ⟨(store_first socket p.binds).1,socket :: p.bound⟩ :=
  (occupied_store_first used p.binds).trans (listed.cons socket)

theorem occupied_clear_first (used : socket ≠ 0) (binds : List Nat) :
    occupied (clear_first socket binds) = (occupied binds).erase socket := by
  induction binds with
  | nil => rfl
  | cons q rest ih =>
    rw [clear_first]
    split
    · rename_i here
      simp [occupied,here,used]
    · rename_i other
      by_cases null : q = 0
      · simpa [occupied,null] using ih
      · simp only [occupied,List.filter_cons,ne_eq,null,not_false_eq_true,decide_true,↓reduceIte] at ih ⊢
        rw [List.erase_cons_tail (by simpa using other),← ih]

theorem listed_cleared {p : Provider} (listed : Listed p) (used : socket ≠ 0) :
    Listed ⟨clear_first socket p.binds,p.bound.erase socket⟩ := by
  rw [Listed,occupied_clear_first used]
  exact listed.erase socket

structure Kept (s : Sockets) : Prop where
  tcp : Listed s.tcp
  udp : Listed s.udp
  distinct : (allocated s).Nodup
  nonnull : ∀ p ∈ allocated s, p ≠ 0
  stale : ∀ p ∈ s.stale, p ≠ 0

theorem kept_present (kept : Kept s) : Present s := by
  have distinct := kept.distinct
  rw [allocated,List.append_assoc] at distinct
  constructor
  · intro p member
    exact listed_count kept.tcp (distinct.sublist (List.sublist_append_left ..)) member
  · intro p member
    refine listed_count kept.udp (distinct.sublist ?_) member
    exact (List.sublist_append_right ..).trans (List.sublist_append_right ..)

/-- Sockets may leave the heap, and change between the lists. -/
theorem kept_of {s' : Sockets} (kept : Kept s) (tcp : Listed s'.tcp) (udp : Listed s'.udp)
    (fewer : (allocated s').Subperm (allocated s)) (stale : ∀ p ∈ s'.stale, p ≠ 0) : Kept s' := by
  obtain ⟨l,same,sub⟩ := fewer
  refine ⟨tcp,udp,?_,?_,stale⟩
  · exact same.nodup_iff.mp (kept.distinct.sublist sub)
  · intro p member
    exact kept.nonnull p (sub.subset (same.symm.subset member))

/-- A new socket. -/
theorem kept_new {s' : Sockets} (kept : Kept s) (tcp : Listed s'.tcp) (udp : Listed s'.udp)
    (used : socket ≠ 0) (fresh : socket ∉ allocated s) (more : (allocated s').Perm (socket :: allocated s))
    (stale : s'.stale = s.stale) : Kept s' := by
  refine ⟨tcp,udp,?_,?_,by rw [stale]; exact kept.stale⟩
  · exact more.nodup_iff.mpr (List.nodup_cons.mpr ⟨fresh,kept.distinct⟩)
  · intro p member
    rcases List.mem_cons.mp (more.subset member) with rfl | before
    · exact used
    · exact kept.nonnull p before

theorem subperm_append {a a' b b' c c' : List Nat} (first : a'.Subperm a) (second : b'.Subperm b) (third : c'.Subperm c) :
    (a' ++ b' ++ c').Subperm (a ++ b ++ c) :=
  (first.append second).append third

theorem erase_subperm (l : List Nat) (p : Nat) : (l.erase p).Subperm l := List.erase_sublist.subperm

section
variable {s : Sockets} {garbage : Nat → Nat} {call : Call} {socket : Nat}

/-- Without a copy nothing is lost only if there is nothing to copy. -/
theorem tcp_bind_safe (safe : 0 ∈ s.tcp.binds ∨ s.tcp.binds = []) :
    tcp_bind s.tcp.binds socket garbage = (store_first socket s.tcp.binds).1 := by
  rw [tcp_bind]
  split
  · rfl
  · rename_i full
    rw [safe.resolve_left full]
    rfl

theorem perform_kept (kept : Kept s) (possible : Possible s call) (safe : Safe s call) : Kept (perform s garbage call) := by
  cases call with
  | tcp_connect socket =>
    obtain ⟨used,fresh⟩ := possible
    refine kept_new kept ?_ kept.udp used fresh (.refl _) rfl
    rw [perform,tcp_bind_safe safe]
    exact listed_stored kept.tcp used
  | tcp_close socket =>
    have used := ((listed_mem kept.tcp).mp possible).2
    refine kept_of kept (listed_cleared kept.tcp used) kept.udp ?_ kept.stale
    have moved : (s.tcp.bound.erase socket ++ socket :: s.closed).Perm (s.tcp.bound ++ s.closed) :=
      List.perm_middle.trans ((List.perm_cons_erase possible).symm.append_right _)
    exact (moved.append_right _).subperm
  | tcp_disconnect socket =>
    have used : socket ≠ 0 := by
      refine kept.nonnull socket ?_
      rcases possible with here | here <;> simp [allocated,here]
    exact kept_of kept (listed_cleared kept.tcp used) kept.udp
      (subperm_append (erase_subperm ..) (erase_subperm ..) (.refl _)) kept.stale
  | udp_connect socket =>
    obtain ⟨used,fresh⟩ := possible
    exact kept_new kept kept.tcp (listed_stored kept.udp used) used fresh List.perm_middle rfl
  | udp_disconnect socket later =>
    cases later with
    | false =>
      obtain ⟨here,used⟩ := (listed_mem kept.udp).mp possible
      refine kept_of kept kept.tcp ?_ (subperm_append (.refl _) (.refl _) (erase_subperm ..)) ?_
      · simp only [perform,udp_socket_disconnect,here,↓reduceIte]
        exact listed_cleared kept.udp used
      · intro p member
        rcases List.mem_cons.mp member with rfl | before
        · exact used
        · exact kept.stale p before
    | true =>
      have absent : socket ∉ s.udp.binds := by
        intro here
        exact safe ((listed_mem kept.udp).mpr ⟨here,kept.stale socket possible⟩)
      refine kept_of kept kept.tcp ?_ (.refl _) ?_
      · simp only [perform,udp_socket_disconnect,absent,↓reduceIte]
        exact kept.udp
      · intro p member
        simp only [perform,udp_socket_disconnect,absent,↓reduceIte] at member
        exact kept.stale p (List.mem_of_mem_erase member)

/-- A step that is not safe loses a socket, when fresh memory holds zeros. -/
theorem unsafe_loses (kept : Kept s) (possible : Possible s call) (danger : ¬ Safe s call) :
    ¬ Present (perform s (fun _ => 0) call) := by
  cases call with
  | tcp_connect socket =>
    obtain ⟨full,some_⟩ := not_or.mp danger
    obtain ⟨q,member⟩ := List.exists_mem_of_ne_nil _ some_
    have used : q ≠ 0 := by
      rintro rfl
      exact full member
    have bound : q ∈ s.tcp.bound := (listed_mem kept.tcp).mpr ⟨member,used⟩
    have other : q ≠ socket := by
      rintro rfl
      exact possible.2 (by simp [allocated,bound])
    intro present
    have once := present.1 q (List.mem_cons_of_mem _ bound)
    have lost : q ∉ tcp_bind s.tcp.binds socket (fun _ => 0) := by
      rw [tcp_bind,if_neg full]
      simp [other,used]
    rw [perform,List.count_eq_zero_of_not_mem lost] at once
    cases once
  | tcp_close socket => exact absurd trivial danger
  | tcp_disconnect socket => exact absurd trivial danger
  | udp_connect socket => exact absurd trivial danger
  | udp_disconnect socket later =>
    cases later with
    | false => exact absurd trivial danger
    | true =>
      have bound : socket ∈ s.udp.bound := not_not.mp danger
      obtain ⟨here,used⟩ := (listed_mem kept.udp).mp bound
      intro present
      have once := present.2 socket bound
      have before := (kept_present kept).2 socket bound
      have cleared := clear_first_self used here
      simp only [perform,udp_socket_disconnect,here,↓reduceIte] at once
      exact cleared (once.trans before.symm)

end

theorem reached_kept (reached : Reached (guarded socket_system Safe) s) : Kept s := by
  refine guarded_invariant ?_ ?_ reached
  · rintro s rfl
    exact ⟨.refl _,.refl _,.nil,by simp [allocated,initial],by simp [initial]⟩
  · rintro s call s' kept ⟨possible,garbage,rfl⟩ safe
    exact perform_kept kept possible safe

/-- Along the safe runs every socket bound and not disconnected is in its table once,
    and it is after a further call, whatever fresh memory holds, exactly when that
    call is safe. -/
theorem sockets_present {s : Sockets} (reached : Reached (guarded socket_system Safe) s) :
    Present s ∧ ∀ call, Possible s call → ((∀ s', socket_system.step s call s' → Present s') ↔ Safe s call) := by
  have kept := reached_kept reached
  refine ⟨kept_present kept,?_⟩
  intro call possible
  constructor
  · intro always
    by_contra danger
    exact unsafe_loses kept possible danger (always _ ⟨possible,_,rfl⟩)
  · rintro safe s' ⟨-,garbage,rfl⟩
    exact kept_present (perform_kept kept possible safe)

/-- One TCP socket, connected. -/
def one_connected : Sockets := perform initial (fun _ => 0) (.tcp_connect 16)

theorem one_reached : Reached (guarded socket_system Safe) one_connected :=
  ⟨_,[.tcp_connect 16],rfl,.step ⟨⟨⟨by decide,by decide⟩,_,rfl⟩,.inr rfl⟩ (.done _)⟩

/-- A TCP socket and two UDP sockets of which one is disconnected, polled to the end and freed; its address and the slot of the
    TCP socket are used again. -/
def reusing : List Call := [.tcp_connect 16,.udp_connect 48,.udp_connect 64,.udp_disconnect 48 false,.udp_disconnect 48 true,
  .tcp_disconnect 16,.tcp_connect 80,.udp_connect 48]

theorem sockets_present_reused : ∃ s, Present s ∧ s.tcp.bound = [80] ∧ s.tcp.binds = [80] ∧ s.udp.bound = [48,64] ∧
    s.udp.binds = [48,64] := by
  refine ⟨reusing.foldl (fun s call => perform s (fun _ => 0) call) initial,(sockets_present ⟨initial,reusing,rfl,
    .step ⟨⟨⟨by decide,by decide⟩,fun _ => 0,rfl⟩,.inr rfl⟩ (.step ⟨⟨⟨by decide,by decide⟩,fun _ => 0,rfl⟩,trivial⟩
    (.step ⟨⟨⟨by decide,by decide⟩,fun _ => 0,rfl⟩,trivial⟩ (.step ⟨⟨?_,fun _ => 0,rfl⟩,trivial⟩
    (.step ⟨⟨?_,fun _ => 0,rfl⟩,?_⟩ (.step ⟨⟨?_,fun _ => 0,rfl⟩,trivial⟩ (.step ⟨⟨⟨by decide,by decide⟩,fun _ => 0,rfl⟩,?_⟩
    (.step ⟨⟨⟨by decide,by decide⟩,fun _ => 0,rfl⟩,trivial⟩ (.done _))))))))⟩).1,by decide,by decide,by decide,by decide⟩
  · show 48 ∈ [64,48]
    decide
  · show 48 ∈ [48]
    decide
  · show 48 ∉ [64]
    decide
  · show 16 ∈ [16] ∨ 16 ∈ []
    decide
  · show 0 ∈ [0] ∨ _
    decide

/-- A second connection loses the first. -/
theorem second_connect_forgets : ¬ ∀ s, Reached socket_system s → Present s := by
  intro always
  obtain ⟨start,calls,begins,run⟩ := one_reached
  have second : socket_system.step one_connected (.tcp_connect 32) (perform one_connected (fun _ => 0) (.tcp_connect 32)) :=
    ⟨⟨by decide,by decide⟩,_,rfl⟩
  have present := always _ ⟨start,_,begins,run_snoc (guarded_run run) second⟩
  exact absurd (present.1 16 (by decide)) (by decide)

end MicroOS.BindTables

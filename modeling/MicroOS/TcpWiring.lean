import MicroOS.TcpReceive

/-!
The two sides of one TCP connection: segments that `tcp_ipv4_recv` takes from the
interrupt, and the polls of `socket_connect` by the task that waits for it. Only
the poll that finds the socket `ESTABLISHED` sets its `recv` and `data`, so a
segment with data may come too early.
-/
namespace MicroOS.TcpWiring
open Tcp TcpRuns TcpReceive Runs

/-- The `async` state of the connect, from the SYN on. -/
inductive Polling where
  | STATE_WAIT | STATE_DONE
  deriving DecidableEq, Repr

/-- A bound socket with the two fields that `socket_connect` sets: whether `recv` is
    `socket_tcp_recv` (or still NULL), and the id of the `socket_t` in `data`. -/
structure Wiring where
  connection : Connection
  async : Polling
  recv : Bool
  data : Option Nat

/-- What a call of `socket->recv` finds in the socket. -/
structure Handover where
  recv : Bool
  data : Option Nat
  deriving DecidableEq

inductive Action where
  | call (call : Call)
  | socket_connect (socket_id : Nat)

/-- `socket_connect` around a poll of `tcp_connect`. -/
def socket_connect (w : Wiring) (socket_id : Nat) : Wiring :=
  match w.async with
  | .STATE_WAIT =>
    if w.connection.socket.state = .ESTABLISHED then
      { w with async := .STATE_DONE, recv := true, data := some socket_id }
    else w
  | .STATE_DONE => { w with recv := true, data := some socket_id }

/-- The socket afterwards, and what each call of `socket->recv` found. -/
def act (w : Wiring) : Action → Wiring × List Handover
  | .call call =>
    ({ w with connection := (perform w.connection call).1 },
      (deliveries (perform w.connection call).2).map (fun _ => ⟨w.recv,w.data⟩))
  | .socket_connect socket_id => (socket_connect w socket_id,[])

/-- The task can send and close only once `socket_connect` gave it the socket. -/
def CanAct (w : Wiring) : Action → Prop
  | .call (.segment env bytes) => Possible w.connection (.segment env bytes)
  | .call (.poll env) => Possible w.connection (.poll env)
  | .call call => Possible w.connection call ∧ w.async = .STATE_DONE
  | .socket_connect _ => w.connection.closing ≠ .STATE_DONE

/-- The system from the SYN on, with an account of the calls of `recv`. -/
def wiring_system : System (Wiring × List Handover) Action where
  start x := (∃ events, Connected x.1.connection events) ∧ x.1.async = .STATE_WAIT ∧ x.1.recv = false ∧
    x.1.data = none ∧ x.2 = []
  step x action y := CanAct x.1 action ∧ y = ((act x.1 action).1,x.2 ++ (act x.1 action).2)

/-- `recv` is never called while it is NULL, nor with `data` unset. -/
def Served (x : Wiring × List Handover) : Prop := ∀ h ∈ x.2, h.recv = true ∧ h.data ≠ none

/-- No data in sequence comes before the poll that finds the socket `ESTABLISHED`. -/
def Timely (x : Wiring × List Handover) : Action → Prop
  | .call call => ∀ tcp, arriving x.1.connection call = some tcp →
      verdict x.1.connection.socket tcp = .data → x.1.async = .STATE_DONE
  | .socket_connect _ => True

/-- The fields are set exactly when the connect is done. -/
structure Consistent (w : Wiring) : Prop where
  wired : w.async = .STATE_DONE → w.recv = true ∧ w.data ≠ none
  waiting : w.async = .STATE_WAIT → w.recv = false

theorem deliveries_resend (env : Env) (s : Socket) : deliveries (tcp_socket_resend_unacked env s).2 = [] := by
  rw [tcp_socket_resend_unacked]
  cases s.tx_unacked_data with
  | none => rfl
  | some data =>
    dsimp only
    split
    · rfl
    · exact deliveries_transmit ..

theorem deliveries_poll (env : Env) (s : Socket) : deliveries (tcp_poll env s).2 = [] := by
  have polls := tcp_poll_polls env s
  generalize tcp_poll env s = r at polls
  cases polls with
  | wait last => rfl
  | giveUp => rfl
  | resendSyn _ _ _ => exact deliveries_send_control ..
  | resend _ => exact deliveries_resend env s

theorem deliveries_disconnect (env : Env) (s : Socket) : deliveries (tcp_socket_disconnect env s).2 = [] := by
  rw [tcp_socket_disconnect]
  split
  · exact deliveries_send_control ..
  · rfl

/-- Only a segment that arrives makes the socket call `recv`. -/
theorem other_deliveries {c : Connection} {call : Call} (silent : arriving c call = none) :
    deliveries (perform c call).2 = [] := by
  cases call with
  | segment env bytes =>
    cases bound : c.bound with
    | false => simp [perform,bound]
    | true =>
      have none : read_header bytes = none := by simpa [arriving,bound] using silent
      simp [perform,bound,none]
  | send env data size => exact deliveries_transmit ..
  | poll env =>
    rw [perform]
    split
    · exact deliveries_poll env c.socket
    · rfl
  | disconnect env =>
    cases closing : c.closing with
    | STATE_INIT =>
      simp only [perform,closing]
      exact deliveries_disconnect env c.socket
    | STATE_WAIT =>
      simp only [perform,closing]
      split <;> rfl
    | STATE_DONE => simp [perform,closing]

/-- What a call hands to `recv`. -/
theorem perform_deliveries (c : Connection) (call : Call) :
    deliveries (perform c call).2 = (arriving c call).elim [] (delivered c.socket) := by
  cases here : arriving c call with
  | none => exact other_deliveries here
  | some tcp =>
    obtain ⟨env,-,events⟩ := arriving_perform here
    rw [events]
    exact (tcp_ipv4_recv_spec env c.socket tcp).2.1

theorem delivered_nonempty (s : Socket) (tcp : Segment) : delivered s tcp ≠ [] ↔ verdict s tcp = .data := by
  cases kind : verdict s tcp <;> simp [delivered,kind]

theorem consistent_act {w : Wiring} (action : Action) (consistent : Consistent w) : Consistent (act w action).1 := by
  cases action with
  | call call => exact ⟨consistent.wired,consistent.waiting⟩
  | socket_connect socket_id =>
    cases async : w.async with
    | STATE_WAIT =>
      by_cases established : w.connection.socket.state = .ESTABLISHED
      · simp only [act,socket_connect,async,established,↓reduceIte]
        exact ⟨by simp,by simp⟩
      · simp only [act,socket_connect,async,established,↓reduceIte]
        exact consistent
    | STATE_DONE =>
      simp only [act,socket_connect,async]
      exact ⟨by simp,by simp⟩

/-- A step calls `recv` with the fields set exactly when it is timely. -/
theorem served_iff {x : Wiring × List Handover} (action : Action) (consistent : Consistent x.1) (served : Served x) :
    Served ((act x.1 action).1,x.2 ++ (act x.1 action).2) ↔ Timely x action := by
  cases action with
  | socket_connect socket_id => simpa [Served,Timely,act] using served
  | call call =>
    cases here : arriving x.1.connection call with
    | none =>
      have silent : (act x.1 (.call call)).2 = [] := by simp [act,perform_deliveries,here]
      rw [silent,List.append_nil]
      exact iff_of_true served (by simp [Timely,here])
    | some tcp =>
      have found : ∀ h ∈ (act x.1 (.call call)).2, h = ⟨x.1.recv,x.1.data⟩ := by
        intro h member
        obtain ⟨_,-,same⟩ := List.mem_map.mp member
        exact same.symm
      have shape : (act x.1 (.call call)).2 =
          (delivered x.1.connection.socket tcp).map (fun _ => ⟨x.1.recv,x.1.data⟩) := by
        simp [act,perform_deliveries,here]
      constructor
      · intro after other arrives data
        rw [here] at arrives
        cases arrives
        have called : (act x.1 (.call call)).2 ≠ [] := by
          rw [shape]
          simpa using (delivered_nonempty _ _).mpr data
        obtain ⟨h,member⟩ := List.exists_mem_of_ne_nil _ called
        have set := (after h (List.mem_append_right _ member)).1
        rw [found h member] at set
        cases async : x.1.async with
        | STATE_DONE => rfl
        | STATE_WAIT =>
          have unset := consistent.waiting async
          exact absurd (unset.symm.trans set) (by decide)
      · intro timely h member
        rcases List.mem_append.mp member with before | now
        · exact served h before
        · have data : verdict x.1.connection.socket tcp = .data := by
            refine (delivered_nonempty _ _).mp ?_
            intro none
            rw [shape,none] at now
            cases now
          rw [found h now]
          exact consistent.wired (timely tcp here data)

theorem reached_served {x : Wiring × List Handover} (reached : Reached (guarded wiring_system Timely) x) :
    Consistent x.1 ∧ Served x := by
  refine @guarded_invariant _ _ wiring_system Timely (fun x => Consistent x.1 ∧ Served x) ?_ ?_ _ reached
  · rintro ⟨w,calls⟩ ⟨-,async,recv,-,none⟩
    refine ⟨⟨?_,fun _ => recv⟩,?_⟩
    · intro done
      exact absurd (async.symm.trans done) (by decide)
    · intro h member
      rw [none] at member
      cases member
  · rintro x action y ⟨consistent,served⟩ ⟨-,rfl⟩ timely
    exact ⟨consistent_act action consistent,(served_iff action consistent served).mpr timely⟩

/-- Along the runs in which no data in sequence comes before `socket_connect` is done,
    every call of `recv` finds it set, and a further step keeps it so only if it is
    such a step. -/
theorem recv_wired {x : Wiring × List Handover} (reached : Reached (guarded wiring_system Timely) x) :
    Served x ∧ ∀ action, CanAct x.1 action →
      (Served ((act x.1 action).1,x.2 ++ (act x.1 action).2) ↔ Timely x action) := by
  obtain ⟨consistent,served⟩ := reached_served reached
  exact ⟨served,fun action _ => served_iff action consistent served⟩

/-- One byte of data after the SYN | ACK of `syn_ack`. -/
def one_byte : List UInt8 := [0,0,0,0,0,0,0,1,0,0,0,1,0x50,0x18,0,0,0,0,0,0,0x41]

/-- A socket whose SYN is out. -/
def fresh_wiring : Wiring := ⟨fresh_connection,.STATE_WAIT,false,none⟩

/-- The socket after the SYN | ACK, before and after the next poll of `socket_connect`. -/
def answered : Wiring := (act fresh_wiring (.call (.segment idle syn_ack))).1
def connected : Wiring := (act answered (.socket_connect 1)).1

theorem answered_run :
    Run (guarded wiring_system Timely) [.call (.segment idle syn_ack)] (fresh_wiring,[]) (answered,[]) := by
  refine .step ⟨⟨⟨by decide,by decide⟩,rfl⟩,?_⟩ (.done _)
  intro tcp here
  cases here
  decide

theorem fresh_start : wiring_system.start (fresh_wiring,[]) := ⟨⟨_,fresh_connected⟩,rfl,rfl,rfl,rfl⟩

theorem recv_wired_connected :
    Served (connected,[]) ∧ (act connected (.call (.segment idle one_byte))).2 = [⟨true,some 1⟩] ∧
      Served ((act connected (.call (.segment idle one_byte))).1,
        [] ++ (act connected (.call (.segment idle one_byte))).2) := by
  have open_ : answered.connection.closing ≠ .STATE_DONE := by decide
  have polled : (guarded wiring_system Timely).step (answered,[]) (.socket_connect 1) (connected,[]) :=
    ⟨⟨open_,rfl⟩,trivial⟩
  have reached : Reached (guarded wiring_system Timely) (connected,[]) :=
    ⟨_,_,fresh_start,run_snoc answered_run polled⟩
  have after := recv_wired reached
  exact ⟨after.1,rfl,(after.2 (.call (.segment idle one_byte)) ⟨by decide,by decide⟩).mpr (fun _ _ _ => rfl)⟩

/-- Data right after the SYN | ACK, before the next poll, calls NULL. -/
theorem recv_called_null : ¬ ∀ x, Reached wiring_system x → Served x := by
  intro always
  have early : wiring_system.step (answered,[]) (.call (.segment idle one_byte))
      ((act answered (.call (.segment idle one_byte))).1,[⟨false,none⟩]) := ⟨⟨by decide,by decide⟩,rfl⟩
  have served := always _ ⟨_,_,fresh_start,run_snoc (guarded_run answered_run) early⟩
  have found := served ⟨false,none⟩ (by decide)
  exact absurd found.1 (by decide)

end MicroOS.TcpWiring

import MicroOS.Ipc

/-!
The runs of a tunnel. As long as the client does not acknowledge between the host's test
and its write, the handshake passes through four situations (`Situation`), and with
messages that fit and wait for it every message goes through seven (`Talk`), which all
lead to its delivery (`ipc_sound`). Otherwise the acknowledgement can be lost
(`acknowledgement_lost`).
-/
namespace MicroOS.Ipc
open Memory Runs
open Option (some.inj)

/-- The size and the bytes of a message are in the tunnel. -/
def Holds (t : Tunnel) (m : Message) : Prop :=
  t.sended_bytes = m.bytes.length ∧ ∀ i < m.bytes.length, m.bytes[i]? = some (t.bytes i)

/-- The way of a message through the tunnel. -/
inductive Talk (s : State) : Prop
  | idle (sends : s.sender = .idle) (receives : s.receiver = .polling) (state : s.tunnel.state = .connection_ok)
      (same : s.delivered = s.returned.map Message.bytes)
  | sizing (m : Message) (fits : m.bytes.length ≤ room) (sends : s.sender = .sizing m) (receives : s.receiver = .polling)
      (state : s.tunnel.state = .connection_ok) (same : s.delivered = s.returned.map Message.bytes)
  | copying (m : Message) (k : Nat) (fits : m.bytes.length ≤ room) (most : k ≤ m.bytes.length) (sends : s.sender = .copying m k)
      (receives : s.receiver = .polling) (state : s.tunnel.state = .connection_ok)
      (size : s.tunnel.sended_bytes = m.bytes.length) (copied : ∀ i < k, m.bytes[i]? = some (s.tunnel.bytes i))
      (same : s.delivered = s.returned.map Message.bytes)
  | published (m : Message) (fits : m.bytes.length ≤ room) (sends : s.sender = .waiting m) (receives : s.receiver = .polling)
      (state : s.tunnel.state = .wait_for_answer) (holds : Holds s.tunnel m) (same : s.delivered = s.returned.map Message.bytes)
  | reading (m : Message) (n : Nat) (fits : m.bytes.length ≤ room) (most : n ≤ m.bytes.length) (sends : s.sender = .waiting m)
      (receives : s.receiver = .copying m.bytes.length (m.bytes.take n)) (state : s.tunnel.state = .wait_for_answer)
      (holds : Holds s.tunnel m) (same : s.delivered = s.returned.map Message.bytes)
  | answering (m : Message) (sends : s.sender = .waiting m) (receives : s.receiver = .answering ∨ s.receiver = .releasing)
      (state : s.tunnel.state = .wait_for_answer) (one_more : s.delivered = s.returned.map Message.bytes ++ [m.bytes])
  | answered (m : Message) (sends : s.sender = .waiting m) (receives : s.receiver = .polling)
      (state : s.tunnel.state = .connection_ok) (one_more : s.delivered = s.returned.map Message.bytes ++ [m.bytes])

/-- Nothing was sent yet. -/
structure Quiet (s : State) : Prop where
  sends : s.sender = .idle
  receives : s.receiver = .polling
  returned : s.returned = []
  delivered : s.delivered = []

/-- The way of the handshake. -/
inductive Situation (s : State) : Prop
  | shaking (host : s.host = .checking ∨ s.host = .restarting) (client : s.client = .waiting_start ∨ s.client = .acknowledging)
      (state : s.tunnel.state = .handshake_start) (quiet : Quiet s)
  | acknowledged (host : s.host = .checking ∨ s.host = .accepting) (client : s.client = .waiting_ok)
      (state : s.tunnel.state = .handshake_ack) (quiet : Quiet s)
  | accepted (host : s.host = .connected) (client : s.client = .waiting_ok) (state : s.tunnel.state = .connection_ok)
      (quiet : Quiet s)
  | talking (host : s.host = .connected) (client : s.client = .connected) (talk : Talk s)

variable {s t : State}

theorem sender_talk (talk : Talk s) (here : ipc_message_send s = some t) : Talk t ∧ sent t = sent s := by
  unfold ipc_message_send at here
  cases talk with
  | idle sends =>
    rw [sends] at here
    cases here
  | sizing m fits sends receives state same =>
    rw [sends] at here
    obtain rfl := some.inj here
    refine ⟨.copying m 0 fits (Nat.zero_le _) rfl receives state rfl (fun i small => absurd small (Nat.not_lt_zero i)) same,?_⟩
    simp only [sent,sends]
  | copying m k fits most sends receives state size copied same =>
    rw [sends] at here
    simp only at here
    obtain inside | whole := Nat.lt_or_eq_of_le most
    · rw [List.getElem?_eq_getElem inside] at here
      obtain rfl := some.inj here
      have within : k < room := by omega
      refine ⟨.copying m (k + 1) fits inside rfl receives ?_ ?_ (fun i small => ?_) same,?_⟩
      · rw [Tunnel.write,if_pos within]
        exact state
      · rw [Tunnel.write,if_pos within]
        exact size
      · simp only [Tunnel.write,if_pos within]
        by_cases last : i = k
        · rw [last,storeByte_same,List.getElem?_eq_getElem inside]
        · rw [storeByte_outside _ _ _ last]
          exact copied i (by omega)
      · simp only [sent,sends]
    · rw [List.getElem?_eq_none (by omega)] at here
      obtain rfl := some.inj here
      refine ⟨.published m fits rfl receives rfl ⟨size,fun i small => copied i (by omega)⟩ same,?_⟩
      simp only [sent,sends]
  | published m fits sends receives state holds same =>
    rw [sends] at here
    simp only [state,if_true] at here
    obtain rfl := some.inj here
    exact ⟨.published m fits sends receives state holds same,rfl⟩
  | reading m n fits most sends receives state holds same =>
    rw [sends] at here
    simp only [state,if_true] at here
    obtain rfl := some.inj here
    exact ⟨.reading m n fits most sends receives state holds same,rfl⟩
  | answering m sends receives state one_more =>
    rw [sends] at here
    simp only [state,if_true] at here
    obtain rfl := some.inj here
    exact ⟨.answering m sends receives state one_more,rfl⟩
  | answered m sends receives state one_more =>
    rw [sends] at here
    simp only [state,reduceCtorEq,if_false] at here
    obtain rfl := some.inj here
    refine ⟨.idle rfl receives state ?_,?_⟩
    · rw [one_more,List.map_append]
      rfl
    · simp only [sent,sends]

theorem receiver_talk (talk : Talk s) (here : ipc_message_receive s = some t) : Talk t ∧ sent t = sent s := by
  unfold ipc_message_receive at here
  cases talk with
  | idle sends receives state same =>
    rw [receives] at here
    simp only [state,reduceCtorEq,if_false] at here
    obtain rfl := some.inj here
    exact ⟨.idle sends rfl state same,rfl⟩
  | sizing m fits sends receives state same =>
    rw [receives] at here
    simp only [state,reduceCtorEq,if_false] at here
    obtain rfl := some.inj here
    exact ⟨.sizing m fits sends rfl state same,rfl⟩
  | copying m k fits most sends receives state size copied same =>
    rw [receives] at here
    simp only [state,reduceCtorEq,if_false] at here
    obtain rfl := some.inj here
    exact ⟨.copying m k fits most sends rfl state size copied same,rfl⟩
  | published m fits sends receives state holds same =>
    rw [receives] at here
    simp only [state,if_true] at here
    obtain rfl := some.inj here
    refine ⟨.reading m 0 fits (Nat.zero_le _) sends ?_ state holds same,rfl⟩
    rw [holds.1,List.take_zero]
  | reading m n fits most sends receives state holds same =>
    have copied : (m.bytes.take n).length = n := List.length_take_of_le most
    rw [receives] at here
    simp only [copied] at here
    obtain inside | whole := Nat.lt_or_eq_of_le most
    · rw [if_pos inside,if_pos (by omega)] at here
      obtain rfl := some.inj here
      refine ⟨.reading m (n + 1) fits inside sends ?_ state holds same,rfl⟩
      rw [List.take_add_one,holds.2 n inside]
      rfl
    · rw [if_neg (by omega)] at here
      obtain rfl := some.inj here
      refine ⟨.answering m sends (.inl rfl) state ?_,rfl⟩
      rw [same,List.take_of_length_le (by omega)]
  | answering m sends receives state one_more =>
    obtain asserts | releases := receives
    · rw [asserts] at here
      simp only [state,if_true] at here
      obtain rfl := some.inj here
      exact ⟨.answering m sends (.inr rfl) state one_more,rfl⟩
    · rw [releases] at here
      obtain rfl := some.inj here
      exact ⟨.answered m sends rfl rfl one_more,rfl⟩
  | answered m sends receives state one_more =>
    rw [receives] at here
    simp only [state,reduceCtorEq,if_false] at here
    obtain rfl := some.inj here
    exact ⟨.answered m sends rfl state one_more,rfl⟩

/-- A call begins when the one before it is done. -/
theorem begin_talk {m : Message} (talk : Talk s) (here : begin_send s m = some t) (fits : m.bytes.length ≤ room) :
    Talk t := by
  unfold begin_send at here
  cases talk with
  | idle sends receives state same =>
    rw [sends] at here
    simp only [state,if_true] at here
    obtain rfl := some.inj here
    exact .sizing m fits rfl receives state same
  | sizing _ _ sends | copying _ _ _ _ sends | published _ _ sends | reading _ _ _ _ sends | answering _ sends | answered _ sends =>
    rw [sends] at here
    cases here

/-- How many steps the message in the tunnel still needs. -/
def left (s : State) : Nat :=
  match s.sender with
  | .idle | .aborted => 0
  | .sizing m => 2 * m.bytes.length + 7
  | .copying m k => m.bytes.length - k + m.bytes.length + 6
  | .waiting m =>
    match s.receiver with
    | .polling => if s.tunnel.state = .wait_for_answer then m.bytes.length + 5 else 1
    | .copying size out => size - out.length + 4
    | .answering => 3
    | .releasing | .aborted => 2

/-- One of the processes brings the message nearer to its end. -/
theorem talk_progress (talk : Talk s) :
    s.sender = .idle ∨ ∃ t, (ipc_message_send s = some t ∨ ipc_message_receive s = some t) ∧ left t < left s := by
  cases talk with
  | idle sends => exact .inl sends
  | sizing m fits sends =>
    refine .inr ⟨{ s with tunnel.sended_bytes := m.bytes.length, sender := .copying m 0 },.inl ?_,?_⟩
    · unfold ipc_message_send
      rw [sends]
    · simp only [left,sends]
      omega
  | copying m k fits most sends =>
    obtain inside | whole := Nat.lt_or_eq_of_le most
    · refine .inr ⟨{ s with tunnel := s.tunnel.write k m.bytes[k], sender := .copying m (k + 1) },.inl ?_,?_⟩
      · unfold ipc_message_send
        rw [sends]
        simp only [List.getElem?_eq_getElem inside]
      · simp only [left,sends]
        omega
    · refine .inr ⟨{ s with tunnel.state := .wait_for_answer, sender := .waiting m },.inl ?_,?_⟩
      · unfold ipc_message_send
        rw [sends]
        simp only [List.getElem?_eq_none (show m.bytes.length ≤ k by omega)]
      · rename_i receives _ _ _ _
        simp only [left,sends,receives,if_true]
        omega
  | published m fits sends receives state holds =>
    refine .inr ⟨{ s with receiver := .copying s.tunnel.sended_bytes [] },.inr ?_,?_⟩
    · unfold ipc_message_receive
      rw [receives]
      simp only [state,if_true]
    · simp only [left,sends,receives,state,if_true,holds.1,List.length_nil]
      omega
  | reading m n fits most sends receives state holds =>
    have copied : (m.bytes.take n).length = n := List.length_take_of_le most
    obtain inside | whole := Nat.lt_or_eq_of_le most
    · refine .inr ⟨{ s with receiver := .copying m.bytes.length (m.bytes.take n ++ [s.tunnel.bytes n]) },.inr ?_,?_⟩
      · unfold ipc_message_receive
        rw [receives]
        simp only [copied,inside,if_true,show n < room by omega]
      · simp only [left,sends,receives,List.length_append,copied,List.length_singleton]
        omega
    · refine .inr ⟨{ s with receiver := .answering, delivered := s.delivered ++ [m.bytes.take n] },.inr ?_,?_⟩
      · unfold ipc_message_receive
        rw [receives]
        simp only [copied,show ¬ n < m.bytes.length by omega,if_false]
      · simp only [left,sends,receives,copied]
        omega
  | answering m sends receives state =>
    obtain asserts | releases := receives
    · refine .inr ⟨{ s with receiver := .releasing },.inr ?_,?_⟩
      · unfold ipc_message_receive
        rw [asserts]
        simp only [state,if_true]
      · simp only [left,sends,asserts]
        omega
    · refine .inr ⟨{ s with tunnel.state := .connection_ok, receiver := .polling },.inr ?_,?_⟩
      · unfold ipc_message_receive
        rw [releases]
      · simp only [left,sends,releases,reduceCtorEq,if_false]
        omega
  | answered m sends receives state =>
    refine .inr ⟨{ s with sender := .idle, returned := s.returned ++ [m] },.inl ?_,?_⟩
    · unfold ipc_message_send
      rw [sends]
      simp only [state,reduceCtorEq,if_false]
    · simp only [left,sends,receives,state,reduceCtorEq,if_false]
      omega

/-- Messages do not change what the processes know of the handshake. -/
theorem message_frame (here : ipc_message_send s = some t ∨ ipc_message_receive s = some t) :
    t.host = s.host ∧ t.client = s.client ∧ t.host_sends = s.host_sends := by
  obtain here | here := here
  · unfold ipc_message_send at here
    split at here
    · obtain rfl := some.inj here
      exact ⟨rfl,rfl,rfl⟩
    · split at here
      · obtain rfl := some.inj here
        exact ⟨rfl,rfl,rfl⟩
      · obtain rfl := some.inj here
        exact ⟨rfl,rfl,rfl⟩
    · split at here
      · obtain rfl := some.inj here
        exact ⟨rfl,rfl,rfl⟩
      · obtain rfl := some.inj here
        exact ⟨rfl,rfl,rfl⟩
    · cases here
    · cases here
  · unfold ipc_message_receive at here
    split at here
    · obtain rfl := some.inj here
      exact ⟨rfl,rfl,rfl⟩
    · split at here
      · obtain rfl := some.inj here
        exact ⟨rfl,rfl,rfl⟩
      · obtain rfl := some.inj here
        exact ⟨rfl,rfl,rfl⟩
    · obtain rfl := some.inj here
      exact ⟨rfl,rfl,rfl⟩
    · obtain rfl := some.inj here
      exact ⟨rfl,rfl,rfl⟩
    · cases here

theorem quiet_sender (quiet : Quiet s) : ipc_message_send s ≠ some t := by
  unfold ipc_message_send
  rw [quiet.sends]
  exact fun none => nomatch none

/-- A receiver that polls before anything was sent finds nothing. -/
theorem quiet_receiver (quiet : Quiet s) (state : s.tunnel.state ≠ .wait_for_answer)
    (here : ipc_message_receive s = some t) : t = s := by
  unfold ipc_message_receive at here
  rw [quiet.receives] at here
  simp only [state,if_false] at here
  rw [← quiet.receives] at here
  exact (some.inj here).symm

theorem host_situation (situation : Situation s) (here : ipc_init_host s = some t) : Situation t := by
  unfold ipc_init_host at here
  cases situation with
  | shaking host client state quiet =>
    obtain ⟨sends,receives,returned,delivered⟩ := quiet
    obtain checks | restarts := host
    · rw [checks] at here
      simp only [state,ne_eq,reduceCtorEq,not_false_eq_true,if_true] at here
      obtain rfl := some.inj here
      exact .shaking (.inr rfl) client state ⟨sends,receives,returned,delivered⟩
    · rw [restarts] at here
      obtain rfl := some.inj here
      exact .shaking (.inl rfl) client rfl ⟨sends,receives,returned,delivered⟩
  | acknowledged host client state quiet =>
    obtain ⟨sends,receives,returned,delivered⟩ := quiet
    obtain checks | accepts := host
    · rw [checks] at here
      simp only [state,ne_eq,not_true_eq_false,if_false] at here
      obtain rfl := some.inj here
      exact .acknowledged (.inr rfl) client state ⟨sends,receives,returned,delivered⟩
    · rw [accepts] at here
      obtain rfl := some.inj here
      exact .accepted rfl client rfl ⟨sends,receives,returned,delivered⟩
  | accepted host | talking host =>
    rw [host] at here
    cases here

theorem client_situation (situation : Situation s) (here : ipc_init s = some t)
    (careful : ¬ (s.client = .acknowledging ∧ s.host = .restarting)) : Situation t := by
  unfold ipc_init at here
  cases situation with
  | shaking host client state quiet =>
    obtain ⟨sends,receives,returned,delivered⟩ := quiet
    obtain waits | acknowledges := client
    · rw [waits] at here
      simp only [state,ne_eq,not_true_eq_false,if_false] at here
      obtain rfl := some.inj here
      exact .shaking host (.inr rfl) state ⟨sends,receives,returned,delivered⟩
    · rw [acknowledges] at here
      obtain rfl := some.inj here
      obtain checks | restarts := host
      · exact .acknowledged (.inl checks) rfl rfl ⟨sends,receives,returned,delivered⟩
      · exact absurd ⟨acknowledges,restarts⟩ careful
  | acknowledged host client state quiet =>
    obtain ⟨sends,receives,returned,delivered⟩ := quiet
    rw [client] at here
    simp only [state,ne_eq,reduceCtorEq,not_false_eq_true,if_true] at here
    obtain rfl := some.inj here
    exact .acknowledged host rfl state ⟨sends,receives,returned,delivered⟩
  | accepted host client state quiet =>
    obtain ⟨sends,receives,returned,delivered⟩ := quiet
    rw [client] at here
    simp only [state,ne_eq,not_true_eq_false,if_false] at here
    obtain rfl := some.inj here
    refine .talking host rfl (.idle sends receives state ?_)
    change s.delivered = s.returned.map Message.bytes
    rw [returned,delivered]
    rfl
  | talking host client =>
    rw [client] at here
    cases here

theorem message_situation (situation : Situation s)
    (here : ipc_message_send s = some t ∨ ipc_message_receive s = some t) : Situation t := by
  have idle (quiet : Quiet s) (state : s.tunnel.state ≠ .wait_for_answer) : t = s := by
    obtain sends | receives := here
    · exact absurd sends (quiet_sender quiet)
    · exact quiet_receiver quiet state receives
  cases situation with
  | shaking host client state quiet =>
    rw [idle quiet (by rw [state]; decide)]
    exact .shaking host client state quiet
  | acknowledged host client state quiet =>
    rw [idle quiet (by rw [state]; decide)]
    exact .acknowledged host client state quiet
  | accepted host client state quiet =>
    rw [idle quiet (by rw [state]; decide)]
    exact .accepted host client state quiet
  | talking host client talk =>
    obtain ⟨host',client',-⟩ := message_frame here
    refine .talking (host'.trans host) (client'.trans client) ?_
    obtain sends | receives := here
    · exact (sender_talk talk sends).1
    · exact (receiver_talk talk receives).1

theorem send_situation {m : Message} (situation : Situation s) (here : begin_send s m = some t)
    (careful : m.bytes.length ≤ room ∧ s.client = .connected) : Situation t := by
  obtain ⟨fits,through⟩ := careful
  cases situation with
  | shaking host client =>
    obtain waits | acknowledges := client
    · rw [waits] at through
      cases through
    · rw [acknowledges] at through
      cases through
  | acknowledged _ client | accepted _ client =>
    rw [client] at through
    cases through
  | talking host client talk =>
    have kept : t.host = s.host ∧ t.client = s.client := by
      unfold begin_send at here
      split at here
      · obtain rfl := some.inj here
        exact ⟨rfl,rfl⟩
      · cases here
    exact .talking (kept.1.trans host) (kept.2.trans client) (begin_talk talk here fits)

theorem step_situation {a : Action} (situation : Situation s) (here : next s a = some t) (careful : Careful s a) :
    Situation t := by
  cases a with
  | host => exact host_situation situation here
  | client => exact client_situation situation here careful
  | send m =>
    simp only [next] at here
    split at here
    · exact send_situation situation here careful
    · cases here
  | sender => exact message_situation situation (.inl here)
  | receiver =>
    simp only [next] at here
    split at here
    · exact message_situation situation (.inr here)
    · cases here

theorem reached_situation (reached : Reached (guarded ipc_system Careful) s) : Situation s := by
  refine guarded_invariant ?_ ?_ reached
  · rintro s ⟨tunnel,host,client,sends,receives,returned,delivered⟩
    exact .shaking (.inl host) (.inl client) (by rw [tunnel]) ⟨sends,receives,returned,delivered⟩
  · intro s a t situation here careful
    exact step_situation situation here careful

/-- The message that is being sent arrives. -/
theorem talk_delivers (host : s.host = .connected) (client : s.client = .connected) (talk : Talk s) :
    ∃ as t, Run ipc_system as s t ∧ t.returned = sent s ∧ t.delivered = (sent s).map Message.bytes := by
  have both (t : State) (host : t.host = .connected) (client : t.client = .connected) (sends : Bool) : connected t sends := by
    unfold connected
    split
    · exact host
    · exact client
  obtain ⟨as,t,run,⟨-,-,talk',same⟩,idle⟩ := @reaches_goal State Action ipc_system
    (fun t => t.host = .connected ∧ t.client = .connected ∧ Talk t ∧ sent t = sent s) (fun t => t.sender = .idle) left (by
      rintro t ⟨host,client,talk,same⟩
      obtain idle | ⟨u,here,less⟩ := talk_progress talk
      · exact .inl idle
      obtain ⟨host',client',-⟩ := message_frame here
      obtain sends | receives := here
      · obtain ⟨talk',same'⟩ := sender_talk talk sends
        exact .inr ⟨.sender,u,sends,⟨host'.trans host,client'.trans client,talk',same'.trans same⟩,less⟩
      · obtain ⟨talk',same'⟩ := receiver_talk talk receives
        have step : next t .receiver = some u := by
          rw [next,if_pos (both t host client false)]
          exact receives
        exact .inr ⟨.receiver,u,step,⟨host'.trans host,client'.trans client,talk',same'.trans same⟩,less⟩) s
    ⟨host,client,talk,rfl⟩
  have returned : t.returned = sent s := by
    rw [← same,sent,idle]
  refine ⟨as,t,run,returned,?_⟩
  cases talk' with
  | idle _ _ _ whole => rw [whole,returned]
  | sizing _ _ sends | copying _ _ _ _ sends | published _ _ sends | reading _ _ _ _ sends | answering _ sends | answered _ sends =>
    rw [sends] at idle
    cases idle

theorem quiet_delivers (quiet : Quiet s) : Delivers s := by
  obtain ⟨sends,receives,returned,delivered⟩ := quiet
  refine ⟨.inl (by rw [returned,delivered]; rfl),⟨?_,?_⟩,[],s,.done s,?_,?_⟩
  · rw [sends]
    exact fun is => nomatch is
  · rw [receives]
    exact fun is => nomatch is
  · rw [sent,sends]
  · rw [sent,sends]
    simp only [returned,delivered,List.map_nil]

theorem talk_sound (host : s.host = .connected) (client : s.client = .connected) (talk : Talk s) : Delivers s := by
  refine ⟨?_,?_,talk_delivers host client talk⟩
  · cases talk with
    | idle _ _ _ same | sizing _ _ _ _ _ same | copying _ _ _ _ _ _ _ _ _ same | published _ _ _ _ _ _ same
    | reading _ _ _ _ _ _ _ _ same => exact .inl same
    | answering m sends _ _ one_more | answered m sends _ _ one_more => exact .inr ⟨m,sends,one_more⟩
  · cases talk with
    | idle sends receives | sizing _ _ sends receives | copying _ _ _ _ sends receives | published _ _ sends receives
    | reading _ _ _ _ sends receives | answered _ sends receives =>
      rw [sends,receives]
      exact ⟨(fun is => nomatch is),fun is => nomatch is⟩
    | answering m sends receives =>
      obtain asserts | releases := receives
      · rw [sends,asserts]
        exact ⟨(fun is => nomatch is),fun is => nomatch is⟩
      · rw [sends,releases]
        exact ⟨(fun is => nomatch is),fun is => nomatch is⟩

theorem situation_sound (situation : Situation s) : Sound s := by
  cases situation with
  | shaking host client state quiet =>
    refine ⟨fun t _ acknowledged => ?_,fun waits => ?_,quiet_delivers quiet⟩
    · rw [state] at acknowledged
      cases acknowledged
    · obtain before | before := client
      · rw [before] at waits
        cases waits
      · rw [before] at waits
        cases waits
  | acknowledged host client state quiet =>
    refine ⟨fun t here _ => ?_,fun _ => .inr ?_,quiet_delivers quiet⟩
    · simp only [next,ipc_init_host] at here
      obtain checks | accepts := host
      · rw [checks] at here
        obtain rfl := some.inj here
        simp only [state,ne_eq,reduceCtorEq,not_false_eq_true]
      · rw [accepts] at here
        obtain rfl := some.inj here
        exact fun is => nomatch is
    · obtain checks | accepts := host
      · exact .inr ⟨[],s,.done s,checks,state⟩
      · exact .inl accepts
  | accepted host client state quiet =>
    refine ⟨fun t _ acknowledged => ?_,fun _ => .inl state,quiet_delivers quiet⟩
    rw [state] at acknowledged
    cases acknowledged
  | talking host client talk =>
    refine ⟨fun t here _ => ?_,fun waits => ?_,talk_sound host client talk⟩
    · simp only [next,ipc_init_host,host] at here
      cases here
    · rw [client] at waits
      cases waits

/-- In careful runs no acknowledgement is overwritten or missed, and every message arrives
    once, in order and as it was sent. -/
theorem ipc_sound {s : State} (reached : Reached (guarded ipc_system Careful) s) : Sound s :=
  situation_sound (reached_situation reached)

/-- Before the first poll. -/
def fresh (host_sends : Bool) : State where
  tunnel := ⟨.handshake_start,0,fun _ => 0⟩
  host := .checking
  client := .waiting_start
  host_sends := host_sends
  sender := .idle
  receiver := .polling
  behind := fun _ => 0
  returned := []
  delivered := []

/-- Two bytes. -/
def short_message : Message := ⟨[79,75],by decide⟩

/-- A handshake, and a message of the client up to its last byte. -/
theorem ipc_sound_sending : Sound { fresh false with
    tunnel := ⟨.connection_ok,2,storeByte (storeByte (fun _ => 0) 0 79) 1 75⟩, host := .connected, client := .connected,
    sender := .copying short_message 2 } := by
  refine ipc_sound ⟨fresh false,[.client,.client,.host,.host,.client,.send short_message,.sender,.sender,.sender],
    ⟨rfl,rfl,rfl,rfl,rfl,rfl,rfl⟩,?_⟩
  exact .step ⟨rfl,by decide⟩ (.step ⟨rfl,by decide⟩ (.step ⟨rfl,trivial⟩ (.step ⟨rfl,trivial⟩ (.step ⟨rfl,by decide⟩
    (.step ⟨rfl,by decide⟩ (.step ⟨rfl,trivial⟩ (.step ⟨rfl,trivial⟩ (.step ⟨rfl,trivial⟩ (.done _)))))))))

/-- The host tests before the client acknowledges, and writes afterwards. -/
theorem acknowledgement_lost : ¬ ∀ s, Reached ipc_system s → Sound s := by
  intro all
  have reached : Reached ipc_system { fresh false with
      tunnel.state := .handshake_ack, host := .restarting, client := .waiting_ok } :=
    ⟨fresh false,[.host,.client,.client],⟨rfl,rfl,rfl,rfl,rfl,rfl,rfl⟩,.step rfl (.step rfl (.step rfl (.done _)))⟩
  exact (all _ reached).kept { fresh false with host := .checking, client := .waiting_ok } rfl rfl rfl

end MicroOS.Ipc

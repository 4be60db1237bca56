import MicroOS.Runs

/-!
The window manager and a client share a ring of events and the two numbers of events that were
ever put into it and taken out of it. Every access to the shared memory is a step of its own. The
main theorem is `event_queue`: what the client receives is a prefix of what the manager accepted.
-/

namespace MicroOS.EventQueue
open Runs
open Function (update update_of_ne update_self)

def WM_MAX_EVENTS : Int := 32
def TITLE_BAR_HEIGHT : Int := 20
def EVENT_NONE : Int := 0

/-- The members of an event. -/
inductive Field
  | type
  | x
  | y
  | button
  | key
  | arrow
deriving DecidableEq

abbrev Event := Field → Int

/-- A value of type `int`. -/
def int (value : Int) : Int := Int.bmod value (2 ^ 32)

/-- What `external_window_send_event` writes for an event. -/
def written (event : Event) : Event
  | .y => int (event .y - TITLE_BAR_HEIGHT)
  | field => event field

/-- The members in the order in which they are written. -/
def fields : List Field := [.type,.x,.y,.button,.key,.arrow]

/-- Where `external_window_send_event` is, with what it has in its variables. -/
inductive Manager
  | idle
  | load (event : Event)
  | compare (event : Event) (event_write : Int)
  | enter (event : Event)
  | fill (event : Event) (idx : Int) (left : List Field)
  | bump (event : Event) (event_write : Int)

/-- Where `wm_client_poll_event` is. -/
inductive Client
  | idle
  | load (out : Event)
  | compare (out : Event) (event_read : Int)
  | enter (out : Event)
  | copy (idx : Int) (left : List Field) (out : Event)
  | bump (out : Event) (event_read : Int)

/-- The shared memory and the two processes, and the events that were sent, accepted and received so far. -/
structure State where
  event_write : Int
  event_read : Int
  events : Int → Event
  manager : Manager
  client : Client
  sent : List Event
  accepted : List Event
  received : List Event

/-- The call; an event without a type only ticks the window itself. -/
def external_window_send_event (s : State) (event : Event) : State :=
  if event .type = EVENT_NONE then s else { s with manager := .load event, sent := s.sent ++ [event] }

/-- One access of the manager to the shared memory. -/
def manager_step (s : State) : State :=
  match s.manager with
  | .idle => s
  | .load event => { s with manager := .compare event s.event_write }
  | .compare event event_write =>
    if int (event_write - s.event_read) ≥ WM_MAX_EVENTS then { s with manager := .idle } else { s with manager := .enter event }
  | .enter event => { s with manager := .fill event (s.event_write.tmod WM_MAX_EVENTS) fields }
  | .fill event idx (field :: left) =>
    { s with events := update s.events idx (update (s.events idx) field (written event field)),
             manager := .fill event idx left }
  | .fill event _ [] => { s with manager := .bump event s.event_write }
  | .bump event event_write =>
    { s with event_write := int (event_write + 1), accepted := s.accepted ++ [written event], manager := .idle }

/-- One access of the client; the members of an event are copied in any order. -/
def client_step (s : State) (field : Field) : State :=
  match s.client with
  | .idle => s
  | .load out => { s with client := .compare out s.event_read }
  | .compare out event_read =>
    if event_read = s.event_write then { s with client := .idle } else { s with client := .enter out }
  | .enter out => { s with client := .copy (s.event_read.tmod WM_MAX_EVENTS) fields out }
  | .copy _ [] out => { s with client := .bump out s.event_read }
  | .copy idx left out => { s with client := .copy idx (left.erase field) (update out field (s.events idx field)) }
  | .bump out event_read =>
    { s with event_read := int (event_read + 1), received := s.received ++ [out], client := .idle }

inductive Action
  | send (event : Event)
  | manager
  | poll (out : Event)
  | client (field : Field)

/-- What `setup_shm_control` leaves, with anything in the ring. -/
structure Start (s : State) : Prop where
  event_write : s.event_write = 0
  event_read : s.event_read = 0
  manager : s.manager = .idle
  client : s.client = .idle
  sent : s.sent = []
  accepted : s.accepted = []
  received : s.received = []

def queue : System State Action where
  start := Start
  step s a t := match a with
    | .send event => s.manager = .idle ∧ t = external_window_send_event s event
    | .manager => t = manager_step s
    | .poll out => s.client = .idle ∧ t = { s with client := .load out }
    | .client field => t = client_step s field

/-- The slot of the event with a number. -/
def slot (n : Nat) : Int := (n : Int).tmod WM_MAX_EVENTS

/-- What the manager knows where it is. -/
def Sending (s : State) : Manager → Prop
  | .idle => s.accepted.Sublist (s.sent.map written)
  | .load event => (s.accepted ++ [written event]).Sublist (s.sent.map written)
  | .compare event event_write =>
    (s.accepted ++ [written event]).Sublist (s.sent.map written) ∧ event_write = s.accepted.length
  | .enter event =>
    (s.accepted ++ [written event]).Sublist (s.sent.map written) ∧ s.accepted.length < s.received.length + 32
  | .fill event idx left =>
    (s.accepted ++ [written event]).Sublist (s.sent.map written) ∧ s.accepted.length < s.received.length + 32 ∧
      idx = slot s.accepted.length ∧ ∀ field, field ∉ left → s.events idx field = written event field
  | .bump event event_write =>
    (s.accepted ++ [written event]).Sublist (s.sent.map written) ∧ s.accepted.length < s.received.length + 32 ∧
      s.events (slot s.accepted.length) = written event ∧ event_write = s.accepted.length

/-- What the client knows where it is. -/
def Polling (s : State) : Client → Prop
  | .idle => True
  | .load _ => True
  | .compare _ event_read => event_read = s.received.length
  | .enter _ => s.received.length < s.accepted.length
  | .copy idx left out => idx = slot s.received.length ∧
      ∃ event, s.accepted[s.received.length]? = some event ∧ ∀ field, field ∉ left → out field = event field
  | .bump out event_read => s.accepted[s.received.length]? = some out ∧ event_read = s.received.length

/-- The unread events are in their slots. -/
structure Ring (s : State) : Prop where
  event_write : s.event_write = s.accepted.length
  event_read : s.event_read = s.received.length
  before : s.received <+: s.accepted
  room : s.accepted.length ≤ s.received.length + 32
  slots : ∀ n event, s.received.length ≤ n → s.accepted[n]? = some event → s.events (slot n) = event
  manager : Sending s s.manager
  client : Polling s s.client

theorem slot_eq (n : Nat) : slot n = (n % 32 : Nat) := rfl

/-- The slots of up to 32 successive events are different. -/
theorem slot_apart {n m : Nat} (less : n < m) (near : m < n + 32) : slot m ≠ slot n := by
  rw [slot_eq,slot_eq]
  omega

theorem int_small {n : Nat} (small : n < 2 ^ 31) : int n = n := by
  unfold int
  rw [Int.bmod_eq_of_le] <;> omega

theorem int_next {n m : Nat} (small : n < 2 ^ 31) (next : n = m + 1) : int ((m : Int) + 1) = n := by
  have whole : (m : Int) + 1 = (n : Int) := by omega
  rw [whole,int_small small]

variable {s t : State}

/-- No more events are accepted than were sent. -/
theorem sending_bound {event : Event} (pending : (s.accepted ++ [written event]).Sublist (s.sent.map written)) :
    s.accepted.length < s.sent.length := by
  have bound := pending.length_le
  rw [List.length_append,List.length_map] at bound
  exact bound

/-- More events may be accepted while the client polls. -/
theorem polling_more {at_ : Client} (received : t.received = s.received) (more : s.accepted <+: t.accepted)
    (polling : Polling s at_) : Polling t at_ := by
  have still {event : Event} (unread : s.accepted[s.received.length]? = some event) :
      t.accepted[t.received.length]? = some event := by
    obtain ⟨others,whole⟩ := more
    obtain ⟨inside,_⟩ := List.getElem?_eq_some_iff.1 unread
    rw [received,← whole,List.getElem?_append_left inside]
    exact unread
  cases at_ with
  | idle => trivial
  | load out => trivial
  | compare out event_read =>
    rw [Polling,received]
    exact polling
  | enter out =>
    rw [Polling,received]
    exact Nat.lt_of_lt_of_le polling more.length_le
  | copy idx left out =>
    obtain ⟨here,event,unread,copied⟩ := polling
    refine ⟨?_,event,still unread,copied⟩
    rw [received]
    exact here
  | bump out event_read =>
    obtain ⟨unread,here⟩ := polling
    refine ⟨still unread,?_⟩
    rw [received]
    exact here

/-- The client only makes room for the manager. -/
theorem sending_more {at_ : Manager} (events : t.events = s.events) (sent : t.sent = s.sent)
    (accepted : t.accepted = s.accepted) (more : s.received.length ≤ t.received.length) (sending : Sending s at_) : Sending t at_ := by
  cases at_ with
  | idle =>
    rw [Sending,accepted,sent]
    exact sending
  | load event =>
    rw [Sending,accepted,sent]
    exact sending
  | compare event event_write =>
    rw [Sending,accepted,sent]
    exact sending
  | enter event =>
    obtain ⟨pending,room⟩ := sending
    rw [Sending,accepted,sent]
    exact ⟨pending,by omega⟩
  | fill event idx left =>
    obtain ⟨pending,room,here,filled⟩ := sending
    rw [Sending,accepted,sent,events]
    exact ⟨pending,by omega,here,filled⟩
  | bump event event_write =>
    obtain ⟨pending,room,filled,here⟩ := sending
    rw [Sending,accepted,sent,events]
    exact ⟨pending,by omega,filled,here⟩

section
variable {s : State} (ring : Ring s)
include ring

theorem send_ring (idle : s.manager = .idle) (event : Event) : Ring (external_window_send_event s event) := by
  unfold external_window_send_event
  split
  · exact ring
  · have sending := ring.manager
    rw [idle] at sending
    refine ⟨ring.event_write,ring.event_read,ring.before,ring.room,ring.slots,?_,polling_more rfl (List.prefix_refl _) ring.client⟩
    change (s.accepted ++ [written event]).Sublist ((s.sent ++ [event]).map written)
    rw [List.map_append]
    exact List.Sublist.append sending (List.Sublist.refl _)

theorem poll_ring (out : Event) : Ring { s with client := .load out } :=
  ⟨ring.event_write,ring.event_read,ring.before,ring.room,ring.slots,
    sending_more rfl rfl rfl (Nat.le_refl _) ring.manager,trivial⟩

/-- What the manager compares is the number of unread events. -/
theorem unread_small (few : s.sent.length < 2 ^ 31) (bound : s.accepted.length ≤ s.sent.length) :
    int ((s.accepted.length : Int) - s.event_read) = (s.accepted.length - s.received.length : Nat) := by
  have less := ring.before.length_le
  have same : (s.accepted.length : Int) - s.event_read = (s.accepted.length - s.received.length : Nat) := by
    rw [ring.event_read]
    omega
  rw [same]
  exact int_small (by omega)

theorem manager_ring (few : s.sent.length < 2 ^ 31) : Ring (manager_step s) := by
  have sending := ring.manager
  have same := List.prefix_refl s.accepted
  have polling {t : State} (received : t.received = s.received) (more : s.accepted <+: t.accepted) (client : t.client = s.client) :
      Polling t t.client := by
    rw [client]
    exact polling_more received more ring.client
  unfold manager_step
  cases here : s.manager with
  | idle => exact ring
  | load event =>
    rw [here] at sending
    exact ⟨ring.event_write,ring.event_read,ring.before,ring.room,ring.slots,⟨sending,ring.event_write⟩,polling rfl same rfl⟩
  | compare event event_write =>
    rw [here] at sending
    obtain ⟨pending,rfl⟩ := sending
    dsimp only
    split
    · have accepted : s.accepted.Sublist (s.sent.map written) := (List.sublist_append_left _ _).trans pending
      exact ⟨ring.event_write,ring.event_read,ring.before,ring.room,ring.slots,accepted,polling rfl same rfl⟩
    · rename_i room
      rw [unread_small ring few (Nat.le_of_lt (sending_bound pending)),WM_MAX_EVENTS] at room
      have room : s.accepted.length < s.received.length + 32 := by omega
      exact ⟨ring.event_write,ring.event_read,ring.before,ring.room,ring.slots,⟨pending,room⟩,polling rfl same rfl⟩
  | enter event =>
    rw [here] at sending
    obtain ⟨pending,room⟩ := sending
    have idx : s.event_write.tmod WM_MAX_EVENTS = slot s.accepted.length := by rw [ring.event_write,slot]
    refine ⟨ring.event_write,ring.event_read,ring.before,ring.room,ring.slots,⟨pending,room,idx,?_⟩,polling rfl same rfl⟩
    intro field none_left
    cases field <;> exact absurd (by decide) none_left
  | fill event idx left =>
    rw [here] at sending
    obtain ⟨pending,room,rfl,filled⟩ := sending
    cases left with
    | nil =>
      have whole : s.events (slot s.accepted.length) = written event := funext fun field => filled field (List.not_mem_nil)
      exact ⟨ring.event_write,ring.event_read,ring.before,ring.room,ring.slots,⟨pending,room,whole,ring.event_write⟩,polling rfl same rfl⟩
    | cons field left =>
      refine ⟨ring.event_write,ring.event_read,ring.before,ring.room,?_,⟨pending,room,rfl,?_⟩,polling rfl same rfl⟩
      · intro n other unread inside
        have inside : s.accepted[n]? = some other := inside
        obtain ⟨less,_⟩ := List.getElem?_eq_some_iff.1 inside
        have unread : s.received.length ≤ n := unread
        have apart := slot_apart less (by omega)
        exact (update_of_ne apart.symm _ _).trans (ring.slots n other unread inside)
      · intro other not_left
        simp only [update_self]
        by_cases same : other = field
        · rw [same,update_self]
        · rw [update_of_ne same]
          exact filled other (by simp [same,not_left])
  | bump event event_write =>
    rw [here] at sending
    obtain ⟨pending,room,filled,rfl⟩ := sending
    have bound := sending_bound pending
    have length : (s.accepted ++ [written event]).length = s.accepted.length + 1 := List.length_append
    have few : s.accepted.length + 1 < 2 ^ 31 := by omega
    have count : int ((s.accepted.length : Int) + 1) = (s.accepted ++ [written event]).length := by
      rw [length]
      exact int_next few rfl
    have more : s.accepted <+: s.accepted ++ [written event] := List.prefix_append _ _
    dsimp only
    refine ⟨?_,ring.event_read,ring.before.trans more,?_,?_,pending,polling rfl more rfl⟩
    · dsimp only
      exact count
    · rw [length]
      exact room
    · intro n other unread inside
      rcases Nat.lt_or_ge n s.accepted.length with before | after
      · have inside : (s.accepted ++ [written event])[n]? = some other := inside
        rw [List.getElem?_append_left before] at inside
        exact ring.slots n other unread inside
      · have inside : (s.accepted ++ [written event])[n]? = some other := inside
        obtain ⟨less,value⟩ := List.getElem?_eq_some_iff.1 inside
        obtain rfl : n = s.accepted.length := by omega
        rw [List.getElem_concat_length] at value
        · rw [← value]
          exact filled
        · rfl

theorem client_ring (few : s.sent.length < 2 ^ 31) (bound : s.accepted.length ≤ s.sent.length) (field : Field) :
    Ring (client_step s field) := by
  have polling := ring.client
  have sending {t : State} (events : t.events = s.events) (sent : t.sent = s.sent) (accepted : t.accepted = s.accepted)
      (more : s.received.length ≤ t.received.length) (manager : t.manager = s.manager) : Sending t t.manager := by
    rw [manager]
    exact sending_more events sent accepted more ring.manager
  unfold client_step
  cases here : s.client with
  | idle => exact ring
  | load out =>
    exact ⟨ring.event_write,ring.event_read,ring.before,ring.room,ring.slots,sending rfl rfl rfl (Nat.le_refl _) rfl,ring.event_read⟩
  | compare out event_read =>
    rw [here] at polling
    obtain rfl : event_read = s.received.length := polling
    dsimp only
    split
    · exact ⟨ring.event_write,ring.event_read,ring.before,ring.room,ring.slots,sending rfl rfl rfl (Nat.le_refl _) rfl,trivial⟩
    · rename_i differ
      rw [ring.event_write] at differ
      have less := ring.before.length_le
      have unread : s.received.length < s.accepted.length := by omega
      exact ⟨ring.event_write,ring.event_read,ring.before,ring.room,ring.slots,sending rfl rfl rfl (Nat.le_refl _) rfl,unread⟩
  | enter out =>
    rw [here] at polling
    have unread : s.received.length < s.accepted.length := polling
    have idx : s.event_read.tmod WM_MAX_EVENTS = slot s.received.length := by rw [ring.event_read,slot]
    have value : s.accepted[s.received.length]? = some s.accepted[s.received.length] := List.getElem?_eq_getElem unread
    refine ⟨ring.event_write,ring.event_read,ring.before,ring.room,ring.slots,sending rfl rfl rfl (Nat.le_refl _) rfl,idx,_,value,?_⟩
    intro field none_left
    cases field <;> exact absurd (by decide) none_left
  | copy idx left out =>
    rw [here] at polling
    obtain ⟨rfl,event,value,copied⟩ := polling
    cases left with
    | nil =>
      have whole : out = event := funext fun field => copied field (List.not_mem_nil)
      rw [← whole] at value
      exact ⟨ring.event_write,ring.event_read,ring.before,ring.room,ring.slots,sending rfl rfl rfl (Nat.le_refl _) rfl,
        value,ring.event_read⟩
    | cons first left =>
      refine ⟨ring.event_write,ring.event_read,ring.before,ring.room,ring.slots,sending rfl rfl rfl (Nat.le_refl _) rfl,
        rfl,event,value,?_⟩
      intro other not_left
      by_cases same : other = field
      · rw [same,update_self,ring.slots _ event (Nat.le_refl _) value]
      · rw [update_of_ne same]
        apply copied
        intro was_left
        exact not_left ((List.mem_erase_of_ne same).2 was_left)
  | bump out event_read =>
    rw [here] at polling
    obtain ⟨value,rfl⟩ := polling
    obtain ⟨less,same⟩ := List.getElem?_eq_some_iff.1 value
    have length : (s.received ++ [out]).length = s.received.length + 1 := List.length_append
    have few : s.received.length + 1 < 2 ^ 31 := by omega
    have count : int ((s.received.length : Int) + 1) = (s.received ++ [out]).length := by
      rw [length]
      exact int_next few rfl
    have before : s.received ++ [out] <+: s.accepted := by
      obtain ⟨rest,whole⟩ := ring.before
      cases rest with
      | nil =>
        rw [List.append_nil] at whole
        rw [whole] at less
        exact absurd less (Nat.lt_irrefl _)
      | cons next rest =>
        refine ⟨rest,?_⟩
        rw [← whole,List.getElem?_append_right (Nat.le_refl _),Nat.sub_self] at value
        obtain rfl : next = out := Option.some.inj value
        rw [List.append_assoc]
        exact whole
    have more : s.received.length ≤ (s.received ++ [out]).length := by omega
    have room : s.accepted.length ≤ s.received.length + 1 + 32 := Nat.le_trans ring.room (by omega)
    dsimp only
    refine ⟨ring.event_write,?_,before,?_,?_,sending rfl rfl rfl more rfl,trivial⟩
    · dsimp only
      exact count
    · rw [length]
      exact room
    · intro n event unread inside
      rw [length] at unread
      exact ring.slots n event (by omega) inside

theorem accepted_sent : s.accepted.Sublist (s.sent.map written) := by
  have idle {at_ : Manager} (sending : Sending s at_) : s.accepted.Sublist (s.sent.map written) := by
    cases at_ with
    | idle => exact sending
    | load event => exact (List.sublist_append_left _ _).trans sending
    | compare event event_write => exact (List.sublist_append_left _ _).trans sending.1
    | enter event => exact (List.sublist_append_left _ _).trans sending.1
    | fill event idx left => exact (List.sublist_append_left _ _).trans sending.1
    | bump event event_write => exact (List.sublist_append_left _ _).trans sending.1
  exact idle ring.manager

theorem accepted_bound : s.accepted.length ≤ s.sent.length := by
  have bound := (accepted_sent ring).length_le
  rw [List.length_map] at bound
  exact bound

end

/-- Nothing that was sent is forgotten. -/
theorem sent_grows {a : Action} (step : queue.step s a t) : s.sent <+: t.sent := by
  cases a with
  | send event =>
    obtain ⟨_,rfl⟩ := step
    unfold external_window_send_event
    split
    · exact List.prefix_refl _
    · exact List.prefix_append _ _
  | manager =>
    obtain rfl : t = manager_step s := step
    have same : (manager_step s).sent = s.sent := by
      unfold manager_step
      split <;> try rfl
      split <;> rfl
    rw [same]
  | poll out =>
    obtain ⟨_,rfl⟩ := step
    exact List.prefix_refl _
  | client field =>
    obtain rfl : t = client_step s field := step
    have same : (client_step s field).sent = s.sent := by
      unfold client_step
      split <;> try rfl
      split <;> rfl
    rw [same]

theorem ring_step {a : Action} (ring : Ring s) (few : s.sent.length < 2 ^ 31) (step : queue.step s a t) : Ring t := by
  cases a with
  | send event =>
    obtain ⟨idle,rfl⟩ := step
    exact send_ring ring idle event
  | manager =>
    obtain rfl : t = manager_step s := step
    exact manager_ring ring few
  | poll out =>
    obtain ⟨_,rfl⟩ := step
    exact poll_ring ring out
  | client field =>
    obtain rfl : t = client_step s field := step
    exact client_ring ring few (accepted_bound ring) field

theorem start_ring (start : Start s) : Ring s := by
  have length : s.accepted.length = 0 := by rw [start.accepted,List.length_nil]
  have none_read : s.received.length = 0 := by rw [start.received,List.length_nil]
  refine ⟨?_,?_,?_,?_,?_,?_,?_⟩
  · rw [start.event_write,length]
    rfl
  · rw [start.event_read,none_read]
    rfl
  · rw [start.received]
    exact List.nil_prefix
  · omega
  · intro n event _ inside
    rw [start.accepted] at inside
    cases inside
  · rw [start.manager,Sending,start.accepted]
    exact List.nil_sublist _
  · rw [start.client]
    trivial

theorem ring_run {as : List Action} (run : Run queue as s t) (ring : Ring s) (few : t.sent.length < 2 ^ 31) : Ring t := by
  have fewer {u : State} {bs : List Action} (rest : Run queue bs u t) : u.sent.length ≤ t.sent.length := by
    induction rest with
    | done u => exact Nat.le_refl _
    | step here _ ih => exact Nat.le_trans (sent_grows here).length_le (ih run few)
  induction run with
  | done s => exact ring
  | step here rest ih =>
    have few_here := Nat.le_trans (sent_grows here).length_le (fewer rest)
    exact ih (ring_step ring (by omega) here) few fewer

/-- Along any interleaving with fewer than 2^31 events the client receives a prefix of what the manager accepted, which are
    events that were sent, in order and as written; an event is dropped only if 32 accepted ones are unread; and the slot
    that is filled is neither the one the client copies nor that of any unread event. -/
theorem event_queue {begin s : State} {as : List Action} (start : queue.start begin) (run : Run queue as begin s)
    (few : s.sent.length < 2 ^ 31) :
    s.received <+: s.accepted ∧ s.accepted.Sublist (s.sent.map written) ∧
    (∀ event event_write, s.manager = .compare event event_write → (manager_step s).manager = .idle →
      s.accepted.length = s.received.length + 32) ∧
    ∀ event idx left, s.manager = .fill event idx left → 0 ≤ idx ∧ idx < WM_MAX_EVENTS ∧
      (∀ copied rest out, s.client = .copy copied rest out → idx ≠ copied) ∧
      ∀ n, s.received.length ≤ n → n < s.accepted.length → idx ≠ (n : Int).tmod WM_MAX_EVENTS := by
  have ring := ring_run run (start_ring start) few
  have bound := accepted_bound ring
  have sending := ring.manager
  have polling := ring.client
  refine ⟨ring.before,?_,?_,?_⟩
  · exact accepted_sent ring
  · intro event event_write here dropped
    rw [here] at sending
    obtain ⟨_,rfl⟩ := sending
    rw [manager_step,here] at dropped
    dsimp only at dropped
    split at dropped
    · rename_i full
      rw [unread_small ring few bound,WM_MAX_EVENTS] at full
      have room := ring.room
      omega
    · cases dropped
  · intro event idx left here
    rw [here] at sending
    obtain ⟨_,room,rfl,_⟩ := sending
    have apart : ∀ n, s.received.length ≤ n → n < s.accepted.length → slot s.accepted.length ≠ slot n := by
      intro n unread before
      exact slot_apart before (by omega)
    have in_ring := slot_eq s.accepted.length
    refine ⟨by omega,?_,?_,apart⟩
    · rw [in_ring,WM_MAX_EVENTS]
      omega
    · intro copied rest out reads
      rw [reads] at polling
      obtain ⟨rfl,_,value,_⟩ := polling
      obtain ⟨less,_⟩ := List.getElem?_eq_some_iff.1 value
      exact apart _ (Nat.le_refl _) less

def empty_queue : State := ⟨0,0,fun _ _ => 0,.idle,.idle,[],[],[]⟩

theorem empty_start : queue.start empty_queue := ⟨rfl,rfl,rfl,rfl,rfl,rfl,rfl⟩

def click : Event := fun _ => 1

/-- The client begins to poll as soon as the manager has written the number of events. -/
def click_run : List Action := .send click :: List.replicate 11 .manager ++ .poll click :: .client .x :: .client .x :: .client .x ::
  fields.map .client ++ [.client .x,.client .x]

theorem event_queue_click : ∃ s, Run queue click_run empty_queue s ∧ s.received.map (· .y) = [-19] ∧ s.received <+: s.accepted := by
  have run : Run queue click_run empty_queue _ := .step ⟨rfl,rfl⟩ (.step rfl (.step rfl (.step rfl (.step rfl (.step rfl (.step rfl
    (.step rfl (.step rfl (.step rfl (.step rfl (.step rfl (.step ⟨rfl,rfl⟩ (.step rfl (.step rfl (.step rfl (.step rfl (.step rfl
    (.step rfl (.step rfl (.step rfl (.step rfl (.step rfl (.step rfl (.done _))))))))))))))))))))))))
  have few : [click].length < 2 ^ 31 := by decide
  exact ⟨_,run,rfl,(event_queue empty_start run few).1⟩

end MicroOS.EventQueue

import MicroOS.AsyncTasks

/-!
The order in which packets go out. As long as every `send_packet` finds a free slot above
all packets that are pending, packets are started in the order of the calls, one at a time,
and every pass polls the oldest one (`packets_in_order`). A packet in a slot below another
one overtakes it, and without a free slot it is lost.
-/
namespace MicroOS.PacketOrder
open Runs AsyncTasks
open Option (some.inj)

/-- A packet that waits in a slot or is on its way. -/
def Pending (k : Kernel) (i : Nat) (p : SendData) : Prop := i < MAX_ASYNC_TASKS ∧ pending k i = some p

/-- The driver has begun to send the packet of the slot. -/
def InFlight (k : Kernel) (i : Nat) (p : SendData) : Prop := Pending k i p ∧ (k.async_tasks i).state ≠ .STATE_INIT

/-- Packets are started in the order of the calls, each once and one at a time; none is
    lost or leaves its copy behind; and a pass that is over has polled the oldest packet. -/
structure Orderly (k : Kernel) : Prop where
  serials : ∀ (n : Nat) (p : SendData), k.sent[n]? = some p → p.serial = n
  order : k.started <+: k.sent
  alone : ∀ i j p q, InFlight k i p → InFlight k j q → i = j
  kept : ∀ n, k.started.length ≤ n → n < k.sent.length → ∃ i p, Pending k i p ∧ p.serial = n
  freed : ∀ n, k.allocated n = true → ∃ i p, Pending k i p ∧ p.serial = n
  polled : k.scan = .idle → k.due = none

/-- The call finds a free slot, above all pending packets. -/
def InTurn (k : Kernel) : Action → Prop
  | .send _ _ => ∃ i, free_slot k MAX_ASYNC_TASKS = some i ∧ ∀ j p, Pending k j p → j < i
  | _ => True

/-! ### The invariant -/

/-- No packet was passed over, or all slots ahead belong to other tasks. -/
def Ahead (k : Kernel) (i : Nat) : Prop := (∀ j p, Pending k j p → i ≤ j) ∨
  ∀ j, i ≤ j → j < MAX_ASYNC_TASKS → (k.async_tasks j).taken = true ∧ pending k j = none

/-- What holds during a pass that has not run a packet yet. -/
def ScanFits (k : Kernel) : Prop :=
  match k.scan with
  | .idle => True
  | .before i flag => flag = false → Ahead k i
  | .inside i flag => (k.async_tasks i).taken = true ∧
      (flag = false → (k.async_tasks i).blocking = true ∨ Ahead k i)

/-- The slot from which on a pass still looks for its first packet. -/
def ahead_of (k : Kernel) : Option Nat :=
  match k.scan with
  | .before i false => some i
  | .inside i false => if (k.async_tasks i).blocking then none else some (i + 1)
  | _ => none

structure Inv (k : Kernel) : Prop where
  serials : ∀ (n : Nat) (p : SendData), k.sent[n]? = some p → p.serial = n
  listed : ∀ i p, Pending k i p → k.sent[p.serial]? = some p
  blocks : ∀ i, (k.async_tasks i).taken = true → (k.async_tasks i).blocking = (k.async_tasks i).run.isSome
  sorted : ∀ i j p q, Pending k i p → Pending k j q → i < j → p.serial < q.serial
  fresh : ∀ i p, Pending k i p → ((k.async_tasks i).state = .STATE_INIT ↔ k.started.length ≤ p.serial)
  last : ∀ i p, Pending k i p → k.started.length ≤ p.serial + 1
  kept : ∀ n, k.started.length ≤ n → n < k.sent.length → ∃ i p, Pending k i p ∧ p.serial = n
  order : k.started = k.sent.take k.started.length
  freed : ∀ n, k.allocated n = true → ∃ i p, Pending k i p ∧ p.serial = n
  scan : ScanFits k
  due : ∀ n, k.due = some n → ∃ from_ j p, ahead_of k = some from_ ∧ from_ ≤ j ∧ Pending k j p ∧ p.serial = n ∧
    ∀ l q, Pending k l q → j ≤ l

section
variable {k : Kernel}

theorem inv_orderly (inv : Inv k) : Orderly k where
  serials := inv.serials
  order := by
    rw [inv.order]
    exact List.take_prefix _ _
  alone := by
    rintro i j p q ⟨i_pending,i_begun⟩ ⟨j_pending,j_begun⟩
    have i_fresh := inv.fresh i p i_pending
    have j_fresh := inv.fresh j q j_pending
    have i_last := inv.last i p i_pending
    have j_last := inv.last j q j_pending
    have same : p.serial = q.serial := by
      have i_started : ¬ k.started.length ≤ p.serial := fun waits => i_begun (i_fresh.mpr waits)
      have j_started : ¬ k.started.length ≤ q.serial := fun waits => j_begun (j_fresh.mpr waits)
      omega
    rcases lt_trichotomy i j with less | here | more
    · exact absurd (inv.sorted i j p q i_pending j_pending less) (by omega)
    · exact here
    · exact absurd (inv.sorted j i q p j_pending i_pending more) (by omega)
  kept := inv.kept
  freed := inv.freed
  polled := by
    intro idle
    cases due : k.due with
    | none => rfl
    | some n =>
      obtain ⟨_,_,_,ahead,-⟩ := inv.due n due
      rw [ahead_of,idle] at ahead
      cases ahead

/-! ### Slots -/

theorem pending_setTask (i : Nat) (task : AsyncTask) (j : Nat) : pending (setTask k i task) j =
    if j = i then (if task.taken && task.state != .STATE_DONE then task.run else none) else pending k j := by
  rw [pending]
  by_cases same : j = i
  · simp [setTask,same]
  · simp [setTask,same,pending]

theorem free_slot_spec {n i : Nat} (found : free_slot k n = some i) : i < n ∧ (k.async_tasks i).taken = false ∧
    ∀ j, i < j → j < n → (k.async_tasks j).taken = true := by
  induction n with
  | zero => cases found
  | succ n ih =>
    rw [free_slot] at found
    cases taken : (k.async_tasks n).taken with
    | true =>
      rw [taken,if_pos rfl] at found
      obtain ⟨below,free,above⟩ := ih found
      refine ⟨Nat.lt_succ_of_lt below,free,?_⟩
      intro j more less
      rcases Nat.lt_succ_iff_lt_or_eq.mp less with inner | rfl
      · exact above j more inner
      · exact taken
    | false =>
      rw [taken,if_neg (by decide)] at found
      obtain rfl := some.inj found
      exact ⟨Nat.lt_succ_self _,taken,fun j more less => by omega⟩

theorem pending_taken {i : Nat} {p : SendData} (found : Pending k i p) : (k.async_tasks i).taken = true ∧
    (k.async_tasks i).state ≠ .STATE_DONE ∧ (k.async_tasks i).run = some p := by
  have here := found.2
  rw [pending] at here
  split at here
  · rename_i open_
    rw [Bool.and_eq_true,bne_iff_ne] at open_
    exact ⟨open_.1,open_.2,here⟩
  · cases here

theorem scan_same {k' : Kernel} (fits : ScanFits k) (same : k'.scan = k.scan)
    (tasks : ∀ j, (k.async_tasks j).taken = true → k'.async_tasks j = k.async_tasks j) (ahead : ∀ n, Ahead k n → Ahead k' n) :
    ScanFits k' := by
  rw [ScanFits] at fits ⊢
  rw [same]
  cases here : k.scan with
  | idle => trivial
  | before n flag =>
    rw [here] at fits
    exact fun quiet => ahead n (fits quiet)
  | inside n flag =>
    rw [here] at fits
    obtain ⟨busy,either⟩ := fits
    dsimp only
    rw [tasks n busy]
    exact ⟨busy,fun quiet => (either quiet).imp_right (ahead n)⟩

theorem ahead_of_same {k' : Kernel} (fits : ScanFits k) (scan : k'.scan = k.scan)
    (tasks : ∀ j, (k.async_tasks j).taken = true → k'.async_tasks j = k.async_tasks j) : ahead_of k' = ahead_of k := by
  rw [ahead_of,ahead_of,scan]
  rw [ScanFits] at fits
  cases here : k.scan with
  | idle => rfl
  | before i flag => cases flag <;> rfl
  | inside i flag =>
    rw [here] at fits
    cases flag with
    | true => rfl
    | false => exact congrArg (fun task : AsyncTask => if task.blocking then none else some (i + 1)) (tasks i fits.1)

/-! ### Adding -/

/-- A task that is no packet changes nothing for the packets. -/
theorem add_inv (inv : Inv k) : Inv (add_async_task k none false) := by
  rw [add_async_task]
  cases found : free_slot k MAX_ASYNC_TASKS with
  | none => exact inv
  | some i =>
    obtain ⟨below,free,above⟩ := free_slot_spec found
    have same : pending (setTask k i ⟨true,false,.STATE_INIT,none⟩) = pending k := by
      funext j
      rw [pending_setTask]
      by_cases here : j = i
      · subst here
        simp [pending,free]
      · rw [if_neg here]
    have taken : ∀ j, (k.async_tasks j).taken = true →
        (setTask k i ⟨true,false,.STATE_INIT,none⟩).async_tasks j = k.async_tasks j := by
      intro j busy
      have other : j ≠ i := by
        rintro rfl
        rw [free] at busy
        cases busy
      exact if_neg other
    have pend : ∀ j p, Pending (setTask k i ⟨true,false,.STATE_INIT,none⟩) j p ↔ Pending k j p := by
      intro j p
      rw [Pending,Pending,same]
    have ahead : ∀ n, Ahead k n → Ahead (setTask k i ⟨true,false,.STATE_INIT,none⟩) n := by
      intro n either
      rcases either with first | others
      · exact .inl fun j p found => first j p ((pend j p).mp found)
      · right
        intro j more less
        obtain ⟨busy,none_⟩ := others j more less
        rw [taken j busy,same]
        exact ⟨busy,none_⟩
    constructor
    · exact inv.serials
    · intro j p found
      exact inv.listed j p ((pend j p).mp found)
    · intro j busy
      by_cases here : j = i
      · subst here
        simp [setTask]
      · simp only [setTask,here,if_false] at busy ⊢
        exact inv.blocks j busy
    · intro j l p q j_found l_found
      exact inv.sorted j l p q ((pend j p).mp j_found) ((pend l q).mp l_found)
    · intro j p found
      have old := (pend j p).mp found
      rw [taken j (pending_taken old).1]
      exact inv.fresh j p old
    · intro j p found
      exact inv.last j p ((pend j p).mp found)
    · intro n started sent
      obtain ⟨j,p,old,serial⟩ := inv.kept n started sent
      exact ⟨j,p,(pend j p).mpr old,serial⟩
    · exact inv.order
    · intro n allocated
      obtain ⟨j,p,old,serial⟩ := inv.freed n allocated
      exact ⟨j,p,(pend j p).mpr old,serial⟩
    · exact scan_same inv.scan rfl taken ahead
    · intro n due
      obtain ⟨from_,j,p,standing,above_,old,serial,least⟩ := inv.due n due
      have standing' := (@ahead_of_same _ (setTask k i ⟨true,false,.STATE_INIT,none⟩) inv.scan rfl taken).trans standing
      exact ⟨from_,j,p,standing',above_,(pend j p).mpr old,serial,fun l q found => least l q ((pend l q).mp found)⟩

/-- A packet has been put into a slot. -/
structure Stored (k k' : Kernel) (i : Nat) (packet : SendData) : Prop where
  serial : packet.serial = k.sent.length
  sent : k'.sent = k.sent ++ [packet]
  started : k'.started = k.started
  scan : k'.scan = k.scan
  due : k'.due = k.due
  allocated : ∀ n, k'.allocated n = if n = packet.serial then true else k.allocated n
  here : k'.async_tasks i = ⟨true,true,.STATE_INIT,some packet⟩
  other : ∀ j, j ≠ i → k'.async_tasks j = k.async_tasks j

theorem send_stored {i : Nat} (found : free_slot k MAX_ASYNC_TASKS = some i) (driver : Nat) (data : List UInt8) :
    Stored k (send_packet k driver data) i ⟨k.sent.length,driver,data⟩ := by
  have same_slot : ∀ n k', k'.async_tasks = k.async_tasks → free_slot k' n = free_slot k n := by
    intro n k' same
    induction n with
    | zero => rfl
    | succ n ih => rw [free_slot,free_slot,same,ih]
  rw [send_packet,add_async_task,same_slot,found]
  · exact ⟨rfl,rfl,rfl,rfl,rfl,fun _ => rfl,if_pos rfl,fun _ other => if_neg other⟩
  · rfl

section
variable {k' : Kernel} {i : Nat} {packet : SendData} (stored : Stored k k' i packet)
include stored

theorem stored_slots (j : Nat) : pending k' j = if j = i then some packet else pending k j := by
  by_cases same : j = i
  · rw [same,pending,stored.here,if_pos rfl]
    rfl
  · rw [pending,stored.other j same,if_neg same]
    rfl

variable (free : (k.async_tasks i).taken = false)
include free

theorem stored_pending (below : i < MAX_ASYNC_TASKS) (j : Nat) (p : SendData) :
    Pending k' j p ↔ Pending k j p ∨ (j = i ∧ p = packet) := by
  have none_ : pending k i = none := by simp [pending,free]
  rw [Pending,Pending,stored_slots stored]
  by_cases here : j = i
  · subst here
    simp [none_,below,eq_comm]
  · simp [here]

theorem busy_other {j : Nat} (busy : (k.async_tasks j).taken = true) : k'.async_tasks j = k.async_tasks j ∧ j ≠ i := by
  have other : j ≠ i := by
    rintro rfl
    rw [free] at busy
    cases busy
  exact ⟨stored.other j other,other⟩

theorem stored_ahead (below : i < MAX_ASYNC_TASKS) (above : ∀ j, i < j → j < MAX_ASYNC_TASKS → (k.async_tasks j).taken = true)
    (highest : ∀ j p, Pending k j p → j < i) {n : Nat} (either : Ahead k n) : Ahead k' n := by
  have closed (others : ∀ j, n ≤ j → j < MAX_ASYNC_TASKS → (k.async_tasks j).taken = true ∧ pending k j = none) : Ahead k' n := by
    right
    intro j more less
    obtain ⟨busy,empty⟩ := others j more less
    obtain ⟨same,other⟩ := busy_other stored free busy
    rw [same,stored_slots stored,if_neg other]
    exact ⟨busy,empty⟩
  rcases either with first | others
  · by_cases behind : n ≤ i
    · left
      intro j p new
      rcases (stored_pending stored free below j p).mp new with old | ⟨rfl,-⟩
      · exact first j p old
      · exact behind
    · -- the packet goes behind the scan: every slot ahead is taken, and none by a packet
      refine closed ?_
      intro j more less
      refine ⟨above j (by omega) less,?_⟩
      cases empty : pending k j with
      | none => rfl
      | some p => exact absurd (highest j p ⟨less,empty⟩) (by omega)
  · exact closed others

end

theorem send_inv (inv : Inv k) (driver : Nat) (data : List UInt8)
    (turn : ∃ i, free_slot k MAX_ASYNC_TASKS = some i ∧ ∀ j p, Pending k j p → j < i) : Inv (send_packet k driver data) := by
  obtain ⟨i,found,highest⟩ := turn
  obtain ⟨below,free,above⟩ := free_slot_spec found
  have stored := send_stored found driver data
  revert stored
  generalize send_packet k driver data = k', (⟨k.sent.length,driver,data⟩ : SendData) = packet
  intro stored
  have serial := stored.serial
  have pend := stored_pending stored free below
  have same {j : Nat} (busy : (k.async_tasks j).taken = true) := busy_other stored free busy
  have short : k.started.length ≤ k.sent.length := by
    rw [inv.order]
    exact List.length_take_le' _ _
  have in_sent : ∀ j p, Pending k j p → p.serial < k.sent.length := by
    intro j p old
    exact (List.getElem?_eq_some_iff.mp (inv.listed j p old)).1
  constructor
  · intro n p at_n
    rw [stored.sent] at at_n
    rcases Nat.lt_or_ge n k.sent.length with inside | outside
    · rw [List.getElem?_append_left inside] at at_n
      exact inv.serials n p at_n
    · rw [List.getElem?_append_right outside,List.getElem?_singleton] at at_n
      split at at_n
      · obtain rfl := some.inj at_n
        omega
      · cases at_n
  · intro j p new
    rw [stored.sent]
    rcases (pend j p).mp new with old | ⟨-,rfl⟩
    · rw [List.getElem?_append_left (in_sent j p old)]
      exact inv.listed j p old
    · rw [serial,List.getElem?_append_right le_rfl,Nat.sub_self]
      rfl
  · intro j busy
    by_cases here : j = i
    · rw [here,stored.here]
      rfl
    · rw [stored.other j here] at busy ⊢
      exact inv.blocks j busy
  · intro j l p q j_new l_new less
    rcases (pend j p).mp j_new with j_old | ⟨rfl,rfl⟩
    · rcases (pend l q).mp l_new with l_old | ⟨rfl,rfl⟩
      · exact inv.sorted j l p q j_old l_old less
      · rw [serial]
        exact in_sent j p j_old
    · rcases (pend l q).mp l_new with l_old | ⟨rfl,rfl⟩
      · exact absurd (highest l q l_old) (by omega)
      · exact absurd less (Nat.lt_irrefl _)
  · intro j p new
    rw [stored.started]
    rcases (pend j p).mp new with old | ⟨rfl,rfl⟩
    · rw [(same (pending_taken old).1).1]
      exact inv.fresh j p old
    · rw [stored.here,serial]
      exact iff_of_true rfl short
  · intro j p new
    rw [stored.started]
    rcases (pend j p).mp new with old | ⟨-,rfl⟩
    · exact inv.last j p old
    · omega
  · intro n more less
    rw [stored.started] at more
    rw [stored.sent,List.length_append,List.length_singleton] at less
    rcases Nat.lt_or_ge n k.sent.length with inside | outside
    · obtain ⟨j,p,old,here⟩ := inv.kept n more inside
      exact ⟨j,p,(pend j p).mpr (.inl old),here⟩
    · exact ⟨i,packet,(pend i packet).mpr (.inr ⟨rfl,rfl⟩),by omega⟩
  · rw [stored.started,stored.sent,List.take_append_of_le_length short]
    exact inv.order
  · intro n live
    rw [stored.allocated] at live
    split at live
    · rename_i same
      exact ⟨i,packet,(pend i packet).mpr (.inr ⟨rfl,rfl⟩),same.symm⟩
    · obtain ⟨j,p,old,here⟩ := inv.freed n live
      exact ⟨j,p,(pend j p).mpr (.inl old),here⟩
  · exact scan_same inv.scan stored.scan (fun j busy => (same busy).1) fun n => stored_ahead stored free below above highest
  · intro n due
    rw [stored.due] at due
    obtain ⟨from_,j,p,standing,above_,old,here,least⟩ := inv.due n due
    have standing' := (ahead_of_same inv.scan stored.scan fun l busy => (same busy).1).trans standing
    refine ⟨from_,j,p,standing',above_,(pend j p).mpr (.inl old),here,?_⟩
    intro l q new
    rcases (pend l q).mp new with l_old | ⟨rfl,-⟩
    · exact least l q l_old
    · exact Nat.le_of_lt (highest j p old)

/-! ### Passes -/

theorem oldest_spec (inv : Inv k) {n : Nat} (found : oldest k = some n) :
    ∃ j p, Pending k j p ∧ p.serial = n ∧ ∀ l q, Pending k l q → j ≤ l := by
  rw [oldest,List.min?_eq_some_iff] at found
  obtain ⟨member,least⟩ := found
  obtain ⟨j,j_below,j_serial⟩ := List.mem_filterMap.mp member
  obtain ⟨p,j_pending,serial⟩ := Option.map_eq_some_iff.mp j_serial
  refine ⟨j,p,⟨List.mem_range.mp j_below,j_pending⟩,serial,?_⟩
  intro l q l_found
  by_contra less
  have below := inv.sorted l j q p l_found ⟨List.mem_range.mp j_below,j_pending⟩ (by omega)
  have listed : q.serial ∈ (List.range MAX_ASYNC_TASKS).filterMap fun i => (pending k i).map SendData.serial :=
    List.mem_filterMap.mpr ⟨l,List.mem_range.mpr l_found.1,by rw [l_found.2]; rfl⟩
  have := least _ listed
  omega

/-- Only the scan moves. -/
theorem scan_inv (inv : Inv k) {scan : Scan} {due : Option Nat} (fits : ScanFits { k with scan := scan, due := due })
    (dues : ∀ n, due = some n → ∃ from_ j p, ahead_of { k with scan := scan, due := due } = some from_ ∧
      from_ ≤ j ∧ Pending k j p ∧ p.serial = n ∧
      ∀ l q, Pending k l q → j ≤ l) : Inv { k with scan := scan, due := due } where
  serials := inv.serials
  listed := inv.listed
  blocks := inv.blocks
  sorted := inv.sorted
  fresh := inv.fresh
  last := inv.last
  kept := inv.kept
  order := inv.order
  freed := inv.freed
  scan := fits
  due := dues

theorem process_inv (inv : Inv k) : Inv { k with scan := .before 0 false, due := oldest k } := by
  refine scan_inv inv ?_ ?_
  · exact fun _ => .inl fun j p _ => Nat.zero_le j
  · intro n found
    obtain ⟨j,p,here,serial,least⟩ := oldest_spec inv found
    exact ⟨0,j,p,rfl,Nat.zero_le j,here,serial,least⟩

/-- A slot without a packet is passed by. -/
theorem pass_by {i : Nat} (ahead : Ahead k i) (none_ : ∀ p, ¬ Pending k i p) : Ahead k (i + 1) := by
  rcases ahead with first | others
  · left
    intro j p found
    have low := first j p found
    have other : j ≠ i := by
      rintro rfl
      exact none_ p found
    omega
  · exact .inr fun j more less => others j (by omega) less

theorem due_pass_by {i : Nat} {flag : Bool} (inv : Inv k) (standing : k.scan = .before i flag)
    (none_ : flag = false → ∀ p, ¬ Pending k i p) : ∀ n, k.due = some n → ∃ j p, flag = false ∧ i + 1 ≤ j ∧ Pending k j p ∧
      p.serial = n ∧ ∀ l q, Pending k l q → j ≤ l := by
  intro n due
  obtain ⟨from_,j,p,ahead,above,here,serial,least⟩ := inv.due n due
  rw [ahead_of,standing] at ahead
  cases flag with
  | true => cases ahead
  | false =>
    obtain rfl := some.inj ahead
    have other : j ≠ i := by
      rintro rfl
      exact none_ rfl p here
    exact ⟨j,p,rfl,by omega,here,serial,least⟩

theorem pending_unique {i : Nat} {p q : SendData} (first : Pending k i p) (second : Pending k i q) : p = q :=
  some.inj (first.2.symm.trans second.2)

/-- The packet in a slot has been polled, and started if it waited. -/
structure Polled (k k' : Kernel) (i : Nat) (packet : SendData) (resolved : Bool) : Prop where
  sent : k'.sent = k.sent
  started : k'.started = if k.started.length ≤ packet.serial then k.started ++ [packet] else k.started
  allocated : ∀ n, k'.allocated n = if resolved = true ∧ n = packet.serial then false else k.allocated n
  due : k'.due = if k.due = some packet.serial then none else k.due
  here : k'.async_tasks i = { k.async_tasks i with state := if resolved then .STATE_DONE else .STATE_WAIT }
  other : ∀ j, j ≠ i → k'.async_tasks j = k.async_tasks j
  scan : k'.scan = .inside i false

section
variable {k' : Kernel} {i : Nat} {packet : SendData} (here : Pending k i packet) {resolved : Bool}
include here

theorem polled_pending (polled : Polled k k' i packet resolved) (j : Nat) (p : SendData) :
    Pending k' j p ↔ Pending k j p ∧ (j = i → resolved = false) := by
  obtain ⟨busy,open_,-⟩ := pending_taken here
  rw [Pending,Pending,pending,pending]
  by_cases same : j = i
  · subst same
    rw [polled.here,busy]
    cases resolved <;> simp [open_]
  · rw [polled.other j same]
    simp [same]

variable (inv : Inv k)
include inv

theorem run_polled (resolved : Bool) : Polled k { run_task k i resolved with scan := .inside i false } i packet resolved := by
  obtain ⟨busy,open_,packed⟩ := pending_taken here
  have init := inv.fresh i packet here
  constructor
  · simp [run_task,packed,setTask]
  · simp [run_task,packed,setTask,init]
  · intro n
    cases resolved <;> simp [run_task,packed,setTask]
  · simp [run_task,packed,setTask]
  · simp [run_task,packed,setTask]
  · intro j other
    simp [run_task,packed,setTask,other]
  · rfl

variable (lowest : ∀ j p, Pending k j p → i ≤ j)
include lowest

/-- A packet that waits in the lowest slot is the next one to start. -/
theorem next_begun (waits : k.started.length ≤ packet.serial) : packet.serial = k.started.length := by
  have inside := (List.getElem?_eq_some_iff.mp (inv.listed i packet here)).1
  obtain ⟨j,p,found,same⟩ := inv.kept k.started.length le_rfl (by omega)
  rcases Nat.lt_or_ge i j with less | more
  · have := inv.sorted i j packet p here found less
    omega
  · obtain rfl : i = j := Nat.le_antisymm (lowest j p found) more
    rw [← same,pending_unique found here]

variable (polled : Polled k k' i packet resolved)
include polled

theorem polled_own : k'.started.length = packet.serial + 1 := by
  have last := inv.last i packet here
  rw [polled.started]
  split
  · rw [List.length_append,List.length_singleton,next_begun here inv lowest ‹_›]
  · omega

/-- The packets that are left come after those that were started. -/
theorem polled_later {j : Nat} {p : SendData} (found : Pending k j p) (other : j ≠ i) : k'.started.length ≤ p.serial := by
  have low := lowest j p found
  have above := inv.sorted i j packet p here found (by omega)
  rw [polled_own here inv lowest polled]
  omega

theorem polled_due : k'.due = none := by
  rw [polled.due]
  cases due : k.due with
  | none => rfl
  | some n =>
    obtain ⟨_,j,p,-,-,found,same,least⟩ := inv.due n due
    obtain rfl : i = j := Nat.le_antisymm (lowest j p found) (least i packet here)
    rw [← same,pending_unique found here,if_pos rfl]

end

/-- The packet of the slot is polled: it is the oldest one. -/
theorem run_packet_inv (inv : Inv k) {i : Nat} {packet : SendData} (here : Pending k i packet) (ahead : Ahead k i)
    (standing : k.scan = .before i false) (resolved : Bool) :
    Inv { run_task k i resolved with scan := .inside i false } := by
  obtain ⟨busy,open_,run⟩ := pending_taken here
  have lowest : ∀ j p, Pending k j p → i ≤ j := by
    rcases ahead with first | others
    · exact first
    · have empty := (others i le_rfl here.1).2
      rw [here.2] at empty
      cases empty
  have polled := run_polled here inv resolved
  revert polled
  generalize ({ run_task k i resolved with scan := .inside i false } : Kernel) = k'
  intro polled
  have pend := polled_pending here polled
  have own := polled_own here inv lowest polled
  have later {j : Nat} {p : SendData} := @polled_later _ _ _ _ here _ inv lowest polled j p
  have started_le : k.started.length ≤ k'.started.length := by
    rw [polled.started]
    split <;> simp
  constructor
  · rw [polled.sent]
    exact inv.serials
  · intro j p found
    rw [polled.sent]
    exact inv.listed j p ((pend j p).mp found).1
  · intro j taken
    by_cases same : j = i
    · rw [same,polled.here]
      exact inv.blocks i busy
    · rw [polled.other j same] at taken ⊢
      exact inv.blocks j taken
  · intro j l p q j_found l_found less
    exact inv.sorted j l p q ((pend j p).mp j_found).1 ((pend l q).mp l_found).1 less
  · intro j p found
    obtain ⟨old,left⟩ := (pend j p).mp found
    by_cases same : j = i
    · subst same
      have equal := pending_unique old here
      subst equal
      rw [polled.here,left rfl,own]
      exact iff_of_false (by simp) (by omega)
    · rw [polled.other j same]
      refine iff_of_true ((inv.fresh j p old).mpr ?_) (later old same)
      exact started_le.trans (later old same)
  · intro j p found
    obtain ⟨old,left⟩ := (pend j p).mp found
    by_cases same : j = i
    · subst same
      have equal := pending_unique old here
      subst equal
      omega
    · have := later old same
      omega
  · intro n more less
    rw [polled.sent] at less
    obtain ⟨j,p,found,same⟩ := inv.kept n (started_le.trans more) less
    refine ⟨j,p,(pend j p).mpr ⟨found,?_⟩,same⟩
    rintro rfl
    have equal := pending_unique found here
    subst equal
    omega
  · rw [polled.sent,own,polled.started]
    have at_serial := inv.listed i packet here
    split
    · have equal := next_begun here inv lowest ‹_›
      rw [List.take_add_one,at_serial,equal,← inv.order]
      rfl
    · have equal : packet.serial + 1 = k.started.length := by omega
      rw [equal]
      exact inv.order
  · intro n live
    rw [polled.allocated] at live
    split at live
    · cases live
    · rename_i kept
      obtain ⟨j,p,found,same⟩ := inv.freed n live
      refine ⟨j,p,(pend j p).mpr ⟨found,?_⟩,same⟩
      rintro rfl
      have equal := pending_unique found here
      subst equal
      cases resolved with
      | true => exact absurd ⟨rfl,same.symm⟩ kept
      | false => rfl
  · rw [ScanFits,polled.scan]
    dsimp only
    rw [polled.here]
    refine ⟨busy,fun _ => .inl ?_⟩
    rw [inv.blocks i busy,run]
    rfl
  · intro n due
    rw [polled_due here inv lowest polled] at due
    cases due

section
variable {i : Nat} {task : AsyncTask} {scan : Scan} (none_ : ∀ p, ¬ Pending k i p)
  (empty : task.taken = true → task.state ≠ .STATE_DONE → task.run = none)
include none_ empty

theorem pending_other (j : Nat) (p : SendData) :
    Pending { setTask k i task with scan := scan } j p ↔ Pending k j p := by
  have slot : pending { setTask k i task with scan := scan } j = pending (setTask k i task) j := rfl
  rw [Pending,Pending,slot,pending_setTask]
  by_cases same : j = i
  · subst same
    rw [if_pos rfl]
    refine iff_of_false ?_ (none_ p)
    rintro ⟨-,found⟩
    split at found
    · rename_i open_
      rw [Bool.and_eq_true,bne_iff_ne] at open_
      rw [empty open_.1 open_.2] at found
      cases found
    · cases found
  · rw [if_neg same]

theorem ahead_other {n : Nat} (ahead : Ahead k n)
    (busy : n ≤ i → task.taken = true) : Ahead { setTask k i task with scan := scan } n := by
  rcases ahead with first | others
  · exact .inl fun j p found => first j p ((pending_other none_ empty j p).mp found)
  · right
    intro j more less
    have quiet : ∀ p, ¬ Pending { setTask k i task with scan := scan } j p := by
      intro p found
      have old := (pending_other none_ empty j p).mp found
      rw [Pending,(others j more less).2] at old
      cases old.2
    refine ⟨?_,?_⟩
    · by_cases same : j = i
      · subst same
        simpa [setTask] using busy more
      · simpa [setTask,same] using (others j more less).1
    · cases found : pending { setTask k i task with scan := scan } j with
      | none => rfl
      | some p => exact absurd ⟨less,found⟩ (quiet p)

end

/-- Packets do not see what happens in a slot that holds none. -/
theorem other_inv (inv : Inv k) {i : Nat} {task : AsyncTask} (none_ : ∀ p, ¬ Pending k i p)
    (empty : task.taken = true → task.state ≠ .STATE_DONE → task.run = none)
    (blocks : task.taken = true → task.blocking = task.run.isSome) {scan : Scan}
    (fits : ScanFits { setTask k i task with scan := scan })
    (dues : ∀ n, k.due = some n → ∃ from_ j p, ahead_of { setTask k i task with scan := scan } = some from_ ∧
      from_ ≤ j ∧ Pending k j p ∧ p.serial = n ∧
      ∀ l q, Pending k l q → j ≤ l) : Inv { setTask k i task with scan := scan } := by
  have pend := @pending_other k i task scan none_ empty
  constructor
  · exact inv.serials
  · intro j p found
    exact inv.listed j p ((pend j p).mp found)
  · intro j taken
    by_cases same : j = i
    · subst same
      simp only [setTask,if_true] at taken ⊢
      exact blocks taken
    · simp only [setTask,same,if_false] at taken ⊢
      exact inv.blocks j taken
  · intro j l p q j_found l_found
    exact inv.sorted j l p q ((pend j p).mp j_found) ((pend l q).mp l_found)
  · intro j p found
    have old := (pend j p).mp found
    have other : j ≠ i := by
      rintro rfl
      exact none_ p old
    simp only [setTask,other,if_false]
    exact inv.fresh j p old
  · intro j p found
    exact inv.last j p ((pend j p).mp found)
  · intro n more less
    obtain ⟨j,p,found,same⟩ := inv.kept n more less
    exact ⟨j,p,(pend j p).mpr found,same⟩
  · exact inv.order
  · intro n live
    obtain ⟨j,p,found,same⟩ := inv.freed n live
    exact ⟨j,p,(pend j p).mpr found,same⟩
  · exact fits
  · intro n due
    obtain ⟨from_,j,p,ahead,above,found,same,least⟩ := dues n due
    exact ⟨from_,j,p,ahead,above,(pend j p).mpr found,same,fun l q new => least l q ((pend l q).mp new)⟩

theorem visit_inv (inv : Inv k) {i : Nat} {flag : Bool} (standing : k.scan = .before i flag) (resolved : Bool) :
    Inv (visit k i flag resolved) := by
  have scan := inv.scan
  rw [ScanFits,standing] at scan
  rw [visit]
  by_cases over_ : MAX_ASYNC_TASKS ≤ i
  · rw [if_pos over_]
    refine scan_inv inv trivial ?_
    intro n due
    obtain ⟨from_,j,p,ahead,above,found,-⟩ := inv.due n due
    rw [ahead_of,standing] at ahead
    cases flag with
    | true => cases ahead
    | false =>
      obtain rfl := some.inj ahead
      exact absurd found.1 (by omega)
  · rw [if_neg over_]
    -- a slot that the pass goes by
    have skip : (flag = false → ∀ p, ¬ Pending k i p) → Inv { k with scan := .before (i + 1) flag } := by
      intro none_
      refine scan_inv inv ?_ ?_
      · exact fun quiet => pass_by (scan quiet) (none_ quiet)
      · intro n due
        obtain ⟨j,p,rfl,above,found,same,least⟩ := due_pass_by inv standing none_ n due
        exact ⟨i + 1,j,p,rfl,above,found,same,least⟩
    by_cases open_ : ((k.async_tasks i).taken && (k.async_tasks i).state != .STATE_DONE) = true
    · rw [if_pos open_]
      rw [Bool.and_eq_true,bne_iff_ne] at open_
      have blocks := inv.blocks i open_.1
      cases run : (k.async_tasks i).run with
      | some packet =>
        have here : Pending k i packet := by
          refine ⟨by omega,?_⟩
          rw [pending,open_.1,run]
          simp [open_.2]
        rw [blocks,run]
        cases flag with
        | true => exact skip (fun quiet => by cases quiet)
        | false => exact run_packet_inv inv here (scan rfl) standing resolved
      | none =>
        have none_ : ∀ p, ¬ Pending k i p := by
          intro p found
          have := (pending_taken found).2.2
          rw [run] at this
          cases this
        rw [blocks,run]
        obtain ⟨task,ran,taken,blocking,task_run⟩ : ∃ task, run_task k i resolved = setTask k i task ∧ task.taken = true ∧
            task.blocking = false ∧ task.run = none := by
          refine ⟨{ k.async_tasks i with state := if resolved then .STATE_DONE else .STATE_WAIT },?_,open_.1,?_,run⟩
          · rw [run_task]
            simp only [run]
          · rw [run] at blocks
            exact blocks
        simp only [Option.isSome_none,Bool.false_and,Bool.false_eq_true,if_false]
        rw [ran]
        refine other_inv inv none_ (fun _ _ => task_run) (fun _ => by rw [blocking,task_run]; rfl) ?_ ?_
        · rw [ScanFits]
          refine ⟨?_,fun quiet => .inr ?_⟩
          · simpa [setTask] using taken
          · exact ahead_other none_ (fun _ _ => task_run) (scan quiet) (fun _ => taken)
        · intro n due
          obtain ⟨j,p,rfl,above,found,same,least⟩ := due_pass_by inv standing (fun _ => none_) n due
          exact ⟨i + 1,j,p,by simp [ahead_of,setTask,blocking],above,found,same,least⟩
    · rw [if_neg open_]
      refine skip fun _ p found => ?_
      have facts := pending_taken found
      rw [facts.1] at open_
      exact open_ (by simpa using facts.2.1)

theorem leave_inv (inv : Inv k) {i : Nat} {flag : Bool} (standing : k.scan = .inside i flag) : Inv (leave k i flag) := by
  have scan := inv.scan
  rw [ScanFits,standing] at scan
  obtain ⟨busy,either⟩ := scan
  have blocks := inv.blocks i busy
  have quiet : (k.async_tasks i).blocking = false → ∀ p, ¬ Pending k i p := by
    intro not_blocking p found
    rw [blocks,(pending_taken found).2.2] at not_blocking
    cases not_blocking
  have dues : ∀ n, k.due = some n → ∃ j p, (flag || (k.async_tasks i).blocking) = false ∧ i + 1 ≤ j ∧ Pending k j p ∧
      p.serial = n ∧ ∀ l q, Pending k l q → j ≤ l := by
    intro n due
    obtain ⟨from_,j,p,ahead,above,found,same,least⟩ := inv.due n due
    rw [ahead_of,standing] at ahead
    cases flag with
    | true => cases ahead
    | false =>
      dsimp only at ahead
      split at ahead
      · cases ahead
      · rename_i open_
        obtain rfl := some.inj ahead
        exact ⟨j,p,by simpa using open_,above,found,same,least⟩
  have ahead : (flag || (k.async_tasks i).blocking) = false → Ahead k (i + 1) := by
    intro none_
    obtain ⟨not_run,not_blocking⟩ := Bool.or_eq_false_iff.mp none_
    refine pass_by ?_ (quiet not_blocking)
    refine (either not_run).resolve_left ?_
    rw [not_blocking]
    decide
  rw [leave]
  by_cases done : (k.async_tasks i).state = .STATE_DONE
  · have none_ : ∀ p, ¬ Pending k i p := fun p found => (pending_taken found).2.1 done
    rw [if_pos done]
    refine other_inv inv none_ (fun taken => by cases taken) (fun taken => by cases taken) ?_ ?_
    · exact fun not_run => ahead_other none_ (fun taken => by cases taken) (ahead not_run) (fun less => by omega)
    · intro n due
      obtain ⟨j,p,not_run,above,found,same,least⟩ := dues n due
      exact ⟨i + 1,j,p,by rw [ahead_of]; simp only [not_run],above,found,same,least⟩
  · rw [if_neg done]
    refine scan_inv inv ahead ?_
    intro n due
    obtain ⟨j,p,not_run,above,found,same,least⟩ := dues n due
    exact ⟨i + 1,j,p,by rw [ahead_of]; simp only [not_run],above,found,same,least⟩

end

/-! ### Runs -/

theorem step_inv {k k' : Kernel} {a : Action} (inv : Inv k) (step : asyncs.step k a k') (turn : InTurn k a) : Inv k' := by
  cases a with
  | send driver data =>
    cases step
    exact send_inv inv driver data turn
  | add =>
    cases step
    exact add_inv inv
  | process =>
    obtain ⟨-,rfl⟩ := step
    exact process_inv inv
  | visit resolved =>
    obtain ⟨i,flag,standing,rfl⟩ := step
    exact visit_inv inv standing resolved
  | leave =>
    obtain ⟨i,flag,standing,rfl⟩ := step
    exact leave_inv inv standing

theorem start_inv {k : Kernel} (start : asyncs.start k) : Inv k := by
  obtain ⟨free,idle,sent,started,allocated,due⟩ := start
  have none_ : ∀ i p, ¬ Pending k i p := by
    intro i p found
    have taken := (pending_taken found).1
    rw [free i] at taken
    cases taken
  constructor
  · intro n p found
    rw [sent] at found
    cases found
  · exact fun i p found => absurd found (none_ i p)
  · intro i taken
    rw [free i] at taken
    cases taken
  · exact fun i j p q found => absurd found (none_ i p)
  · exact fun i p found => absurd found (none_ i p)
  · exact fun i p found => absurd found (none_ i p)
  · intro n _ less
    rw [sent] at less
    cases less
  · rw [started,sent]
    rfl
  · intro n live
    rw [allocated n] at live
    cases live
  · rw [ScanFits,idle]
    trivial
  · intro n found
    rw [due] at found
    cases found

/-- As long as every packet gets a slot above all pending ones, the drivers start the packets
    in the order of the calls, each once and one at a time. -/
theorem packets_in_order {k : Kernel} (reached : Reached (guarded asyncs InTurn) k) : Orderly k :=
  inv_orderly (guarded_invariant (fun _ start => start_inv start) (fun _ _ _ inv step turn => step_inv inv step turn) reached)

def no_tasks : Kernel := {
  async_tasks := fun _ => ⟨false,false,.STATE_INIT,none⟩
  scan := .idle
  sent := []
  started := []
  allocated := fun _ => false
  due := none }

theorem no_tasks_start : asyncs.start no_tasks := ⟨fun _ => rfl,rfl,rfl,rfl,fun _ => rfl,rfl⟩

def in_turn (k : Kernel) : Bool :=
  match free_slot k MAX_ASYNC_TASKS with
  | some i => (List.range MAX_ASYNC_TASKS).all fun j => (pending k j).isNone || j < i
  | none => false

theorem in_turn_send {k : Kernel} (turn : in_turn k = true) (driver : Nat) (data : List UInt8) : InTurn k (.send driver data) := by
  unfold in_turn at turn
  split at turn
  · rename_i i free
    refine ⟨i,free,fun j p found => ?_⟩
    have clear := List.all_eq_true.mp turn j (List.mem_range.mpr found.1)
    rw [found.2] at clear
    simpa using clear
  · cases turn

/-- What an action leads to where packets are sent in turn. -/
def taken_turn (k : Kernel) : Action → Option Kernel
  | .send driver data => if in_turn k then some (send_packet k driver data) else none
  | .add => some (add_async_task k none false)
  | .process => match k.scan with
    | .idle => some { k with scan := .before 0 false, due := oldest k }
    | _ => none
  | .visit resolved => match k.scan with
    | .before i blocking_task_run => some (visit k i blocking_task_run resolved)
    | _ => none
  | .leave => match k.scan with
    | .inside i blocking_task_run => some (leave k i blocking_task_run)
    | _ => none

theorem taken_turn_step (k : Kernel) (a : Action) (k' : Kernel) (done : taken_turn k a = some k') :
    (guarded asyncs InTurn).step k a k' := by
  cases a with
  | send driver data =>
    obtain ⟨turn,same⟩ := Option.ite_none_right_eq_some.mp done
    exact ⟨(some.inj same).symm,in_turn_send turn driver data⟩
  | add => exact ⟨(some.inj done).symm,trivial⟩
  | process =>
    simp only [taken_turn] at done
    split at done
    · rename_i idle
      exact ⟨⟨idle,(some.inj done).symm⟩,trivial⟩
    · cases done
  | visit resolved =>
    simp only [taken_turn] at done
    split at done
    · rename_i i blocking_task_run here
      exact ⟨⟨i,blocking_task_run,here,(some.inj done).symm⟩,trivial⟩
    · cases done
  | leave =>
    simp only [taken_turn] at done
    split at done
    · rename_i i blocking_task_run here
      exact ⟨⟨i,blocking_task_run,here,(some.inj done).symm⟩,trivial⟩
    · cases done

/-- Another task has the last slot while the first packet is sent and waits; it is over before the second packet comes. -/
def two_in_turn : List Action := List.flatten [[.add,.send 0 [0x41],.process],List.replicate 14 (.visit false),
  [.visit false,.leave,.visit true,.leave,.visit false,.send 0 [0x42],.process],List.replicate 14 (.visit false),
  [.visit true,.leave,.visit false,.visit false,.process],List.replicate 15 (.visit false),[.visit true,.leave,.visit false]]

theorem packets_in_order_two : ∃ k, Orderly k ∧ (k.sent.map SendData.serial,k.started.map SendData.serial,k.due) = ([0,1],[0,1],none) := by
  obtain ⟨k,reached,all⟩ := follows_reached taken_turn_step no_tasks_start two_in_turn
    (fun k => (k.sent.map SendData.serial,k.started.map SendData.serial,k.due)) ([0,1],[0,1],none) (by decide +kernel)
  exact ⟨k,packets_in_order reached,all⟩

/-- A pass goes by free slots. -/
theorem skip_free {k : Kernel} (n : Nat) {i : Nat} {flag : Bool} (below : i + n ≤ MAX_ASYNC_TASKS)
    (free : ∀ j, i ≤ j → j < i + n → (k.async_tasks j).taken = false) : Run asyncs (List.replicate n (.visit false))
      { k with scan := .before i flag } { k with scan := .before (i + n) flag } := by
  induction n generalizing i with
  | zero => exact .done _
  | succ n ih =>
    have here : visit { k with scan := .before i flag } i flag false = { k with scan := .before (i + 1) flag } := by
      have not_taken := free i le_rfl (by omega)
      simp [visit,not_taken]
      omega
    have next := ih (i := i + 1) (by omega) (fun j low high => free j (by omega) (by omega))
    rw [show i + 1 + n = i + (n + 1) by omega] at next
    exact .step ⟨i,flag,rfl,here.symm⟩ next

def two_packets : Kernel := send_packet (send_packet no_tasks 0 [0x41]) 0 [0x42]

/-- The second of two packets is started first. -/
theorem second_packet_first : ∃ k, Reached asyncs k ∧ k.sent = [⟨0,0,[0x41]⟩,⟨1,0,[0x42]⟩] ∧
    k.started = [⟨1,0,[0x42]⟩] ∧ ¬ Orderly k := by
  have begun : Run asyncs [.send 0 [0x41],.send 0 [0x42],.process] no_tasks
      { two_packets with scan := .before 0 false, due := some 0 } :=
    .step rfl (.step rfl (.step ⟨rfl,rfl⟩ (.done _)))
  have skipped := @skip_free { two_packets with due := some 0 } 14 0 false (by decide) (by decide)
  have last : Run asyncs [.visit true] { two_packets with scan := .before 14 false, due := some 0 }
      (visit { two_packets with scan := .before 14 false, due := some 0 } 14 false true) :=
    .step ⟨14,false,rfl,rfl⟩ (.done _)
  refine ⟨_,⟨no_tasks,_,no_tasks_start,run_append begun (run_append skipped last)⟩,rfl,rfl,?_⟩
  intro orderly
  exact absurd orderly.order (by decide)

end MicroOS.PacketOrder

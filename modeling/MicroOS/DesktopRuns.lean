import MicroOS.Desktop

/-!
The runs of the desktop. As long as every client is spawned and every window has its
place, each used slot has one open external window (`Kept`), and a window that is closed
kills at most its own client (`desktop_sound`). A window whose client was not spawned stays
in the table with its slot (`slot_without_client`).
-/
namespace MicroOS.Desktop
open Runs
open Tasks (next_pid)

variable {p : Processes} {s : State}

theorem counted_spawn (counted : Counted p) (room : p.started + 1 < 2 ^ 31) : Counted p.spawn := by
  obtain ⟨current,positive,names⟩ := counted
  refine ⟨?_,Nat.succ_pos _,fun pid task here => ?_⟩
  · have small : p.current_pid ≠ 2 ^ 31 - 1 := by omega
    change next_pid p.current_pid = ((p.started + 1 : Nat) : Int)
    rw [next_pid,if_neg small,current]
    rfl
  · simp only [Processes.spawn] at here
    split at here
    · obtain rfl := Option.some.inj here
      omega
    · exact names pid task here

theorem counted_exit (counted : Counted p) (pid : Int) : Counted (p.exit pid) := by
  refine ⟨counted.current,counted.positive,fun other task here => ?_⟩
  simp only [Processes.exit] at here
  split at here
  · cases here
  · exact counted.names other task here

theorem counted_event (counted : Counted p) (room : p.started + 1 < 2 ^ 31) (e : Event) :
    Counted (p.event e) ∧ p.started ≤ (p.event e).started ∧ (p.event e).started ≤ p.started + 1 := by
  cases e with
  | spawn => exact ⟨counted_spawn counted room,Nat.le_succ _,Nat.le_refl _⟩
  | exit pid => exact ⟨counted_exit counted pid,Nat.le_refl _,Nat.le_succ _⟩

variable {during : List Event} {slot : Nat} {t : State} {a : Action}

theorem counted_events (counted : Counted p) (room : p.started + during.length < 2 ^ 31) :
    Counted (during.foldl Processes.event p) ∧ p.started ≤ (during.foldl Processes.event p).started := by
  induction during generalizing p with
  | nil => exact ⟨counted,Nat.le_refl _⟩
  | cons e rest ih =>
    rw [List.length_cons] at room
    obtain ⟨first,more,most⟩ := counted_event counted (by omega) e
    obtain ⟨later,more'⟩ := ih first (by omega)
    exact ⟨later,by rw [List.foldl_cons]; omega⟩

/-- A window with its client, or a plain one. -/
inductive Whole (started : Nat) (w : Window) : Prop
  | external (est : External) (task : Nat) (state : w.state = some est) (is : w.is_external = true) (slot : w.shm_slot = est.slot)
      (small : est.slot < WM_MAX_SLOTS) (client : est.spawned = some task) (pid : est.pid = task) (later : 0 < task)
      (known : task < started)
  | plain (state : w.state = none) (is : w.is_external = false)

theorem Whole.more {started started' : Nat} {w : Window} (whole : Whole started w) (more : started ≤ started') :
    Whole started' w := by
  cases whole with
  | external est task state is slot small client pid later known =>
    exact .external est task state is slot small client pid later (by omega)
  | plain state is => exact .plain state is

structure Kept (s : State) : Prop where
  slots : ∀ i, s.windows.countP (owns i) = if s.slot_used i then 1 else 0
  states : s.states = s.windows.countP Window.is_external
  focus : s.focused_window = -1 ∨ 0 ≤ s.focused_window ∧ s.focused_window < s.windows.length
  whole : ∀ w ∈ s.windows, Whole s.processes.started w
  counted : Counted s.processes

theorem kept_owned (kept : Kept s) : Owned s := by
  refine ⟨fun i => ?_,kept.states,kept.focus⟩
  rw [kept.slots i]
  cases s.slot_used i <;> simp

/-- A window that is in the table, with what is before and behind it. -/
theorem window_get_split {idx : Int} {w : Window} (here : window_get s idx = some w) :
    ∃ before behind, s.windows = before ++ w :: behind ∧ s.windows.eraseIdx idx.toNat = before ++ behind ∧
      idx = before.length := by
  unfold window_get at here
  split at here
  · rename_i inside
    obtain ⟨small,is⟩ := List.getElem?_eq_some_iff.1 here
    refine ⟨s.windows.take idx.toNat,s.windows.drop (idx.toNat + 1),?_,List.eraseIdx_eq_take_drop_succ .., ?_⟩
    · rw [← is,List.getElem_cons_drop,List.take_append_drop]
    · rw [List.length_take_of_le (Nat.le_of_lt small)]
      omega
  · cases here

theorem alloc_slot_spec (found : external_window_alloc_slot s = some slot) :
    slot < WM_MAX_SLOTS ∧ s.slot_used slot = false := by
  have free := List.find?_some found
  exact ⟨List.mem_range.1 (List.mem_of_find?_eq_some found),by simpa using free⟩

/-- A client that is spawned gets its window. -/
theorem add_spawned (kept : Kept s) (found : external_window_alloc_slot s = some slot)
    (place : s.windows.length < MAX_WINDOWS) : ∃ w, w.is_external = true ∧ w.shm_slot = slot ∧
      Whole s.processes.spawn.started w ∧ window_add_external s .spawned = { s with
        slot_used := fun i => if i = slot then true else s.slot_used i, states := s.states + 1, windows := s.windows ++ [w],
        focused_window := s.windows.length, processes := s.processes.spawn } := by
  obtain ⟨small,-⟩ := alloc_slot_spec found
  obtain ⟨current,positive,-⟩ := kept.counted
  refine ⟨⟨some ⟨slot,s.processes.current_pid,true,some s.processes.started⟩,true,s.processes.current_pid,slot⟩,rfl,rfl,
    .external _ s.processes.started rfl rfl rfl small rfl current positive (Nat.lt_succ_self _),?_⟩
  have nonnegative : ¬ s.processes.current_pid < 0 := by omega
  simp only [window_add_external,found,window_add_with_state,if_neg (Nat.not_le.2 place),external_window_init,if_neg nonnegative]

theorem focus_last (windows : List Window) (w : Window) :
    (0 : Int) ≤ windows.length ∧ (windows.length : Int) < (windows ++ [w]).length := by
  rw [List.length_append,List.length_singleton]
  omega

theorem add_external_kept {launch : Launch} (kept : Kept s) (room : s.processes.started + 1 < 2 ^ 31)
    (careful : external_window_alloc_slot s = none ∨ launch = .spawned ∧ s.windows.length < MAX_WINDOWS) :
    Kept (window_add_external s launch) := by
  cases found : external_window_alloc_slot s with
  | none =>
    rw [window_add_external,found]
    exact kept
  | some slot =>
    obtain none | ⟨rfl,place⟩ := careful
    · rw [found] at none
      cases none
    obtain ⟨w,is,shm,whole,added⟩ := add_spawned kept found place
    obtain ⟨-,unused⟩ := alloc_slot_spec found
    rw [added]
    refine ⟨fun i => ?_,?_,.inr (focus_last s.windows w),fun other member => ?_,counted_spawn kept.counted room⟩
    · rw [List.countP_append,kept.slots i,List.countP_singleton,owns,is,shm]
      by_cases same : i = slot
      · rw [same,unused]
        simp
      · have other : (slot == i) = false := by simpa using fun is => same is.symm
        simp [same,other]
    · rw [List.countP_append,← kept.states,List.countP_singleton,is,if_pos rfl]
    · obtain old | new := List.mem_append.1 member
      · exact (kept.whole other old).more (Nat.le_succ _)
      · rwa [List.mem_singleton.1 new]

theorem add_kept (kept : Kept s) : Kept (window_add_with_state s fun p => (plain,p)) := by
  unfold window_add_with_state
  split
  · exact kept
  · refine ⟨fun i => ?_,?_,.inr (focus_last s.windows plain),fun other member => ?_,kept.counted⟩
    · rw [List.countP_append,kept.slots i]
      rfl
    · rw [List.countP_append,← kept.states]
      rfl
    · obtain old | new := List.mem_append.1 member
      · exact kept.whole other old
      · rw [List.mem_singleton.1 new]
        exact .plain rfl rfl

theorem refocus_spec {focused : Int} {before behind : Nat}
    (focus : focused = -1 ∨ 0 ≤ focused ∧ focused < (before + (behind + 1) : Nat)) :
    refocus focused before (before + behind) = -1 ∨
      0 ≤ refocus focused before (before + behind) ∧ refocus focused before (before + behind) < (before + behind : Nat) := by
  unfold refocus
  split
  · split
    · omega
    · exact .inl rfl
  · split
    · omega
    · omega

theorem close_kept {idx : Int} (kept : Kept s)
    (room : s.processes.started + during.length < 2 ^ 31) : Kept (window_close s idx during) := by
  unfold window_close
  cases here : window_get s idx with
  | none => exact kept
  | some w =>
    dsimp only
    obtain ⟨before,behind,windows,erased,place⟩ := window_get_split here
    obtain ⟨slots,states,focus,whole,counted⟩ := kept
    rw [windows,List.length_append,List.length_cons] at focus
    have focused := refocus_spec focus
    rw [← place,← List.length_append,← erased] at focused
    simp only [windows,List.countP_append,List.countP_cons] at slots states
    rw [← Nat.add_assoc,← List.countP_append,← erased] at states
    have rest (started : Nat) (more : s.processes.started ≤ started) :
        ∀ other ∈ s.windows.eraseIdx idx.toNat, Whole started other := fun other member =>
      (whole other (List.mem_of_mem_eraseIdx member)).more more
    have count (i : Nat) : (s.windows.eraseIdx idx.toNat).countP (owns i) + (if owns i w = true then 1 else 0) =
        if s.slot_used i then 1 else 0 := by
      rw [← slots i,erased,List.countP_append,Nat.add_assoc]
    cases whole w (by rw [windows]; exact List.mem_append_right _ List.mem_cons_self) with
    | plain state is =>
      have cleaned : external_window_cleanup s w during = s := by rw [external_window_cleanup,state]
      rw [cleaned]
      refine ⟨fun i => ?_,?_,focused,rest _ (Nat.le_refl _),counted⟩
      · rw [← count i,owns,is]
        rfl
      · simpa [is] using states
    | external est task state is slot small client pid later known =>
      obtain ⟨counted',more⟩ := counted_events counted room
      obtain ⟨waited,is_waited⟩ : ∃ waited, waited = during.foldl Processes.event s.processes := ⟨_,rfl⟩
      rw [← is_waited] at counted' more
      have cleaned : external_window_cleanup s w during = { s with
          slot_used := fun i => if i = est.slot then false else s.slot_used i, states := s.states - 1,
          processes := (killed waited w).elim waited waited.exit } := by
        rw [external_window_cleanup,state]
        dsimp only
        rw [external_window_free_slot,if_pos small,is_waited]
      obtain ⟨counted'',started⟩ : Counted ((killed waited w).elim waited waited.exit) ∧
          s.processes.started ≤ ((killed waited w).elim waited waited.exit).started := by
        cases killed waited w with
        | none => exact ⟨counted',more⟩
        | some pid => exact ⟨counted_exit counted' pid,more⟩
      rw [cleaned]
      refine ⟨fun i => ?_,?_,focused,rest _ started,counted''⟩
      · have left := count i
        rw [owns,is,slot] at left
        by_cases same : i = est.slot
        · rw [same] at left ⊢
          simp only [beq_self_eq_true,Bool.and_true,if_true] at left ⊢
          split at left
          · exact Nat.succ.inj left
          · cases left
        · have other : (est.slot == i) = false := by simpa using fun is => same is.symm
          rw [other] at left
          simpa [same] using left
      · simp only [is,if_true] at states
        exact Nat.sub_eq_of_eq_add states

theorem focus_kept (kept : Kept s) (idx : Int) : Kept (window_set_focused s idx) := by
  unfold window_set_focused
  split
  · rename_i inside
    refine ⟨kept.slots,kept.states,?_,kept.whole,kept.counted⟩
    by_cases none : idx = -1
    · exact .inl none
    · right
      change 0 ≤ idx ∧ idx < s.windows.length
      omega
  · exact kept

theorem step_kept (kept : Kept s) (step : desktop_system.step s a t) (careful : Careful s a) : Kept t := by
  obtain ⟨room,fine⟩ := careful
  obtain rfl : t = next s a := step
  cases a with
  | add_external launch => exact add_external_kept kept room (fine launch rfl)
  | add => exact add_kept kept
  | close idx during => exact close_kept kept room
  | focus idx => exact focus_kept kept idx
  | event e =>
    obtain ⟨counted,more,-⟩ := counted_event kept.counted room e
    exact ⟨kept.slots,kept.states,kept.focus,fun w member => (kept.whole w member).more more,counted⟩

theorem reached_kept (reached : Reached (guarded desktop_system Careful) s) : Kept s := by
  refine guarded_invariant ?_ ?_ reached
  · rintro s ⟨slots,windows,focus,states,counted⟩
    refine ⟨fun i => ?_,?_,.inl focus,fun w member => ?_,counted⟩
    · rw [slots,windows]
      rfl
    · rw [states,windows]
      rfl
    · rw [windows] at member
      cases member
  · intro s a t kept step careful
    exact step_kept kept step careful

/-- A window kills its own client, which the pid still names. -/
theorem step_fair (kept : Kept s) (step : desktop_system.step s a t) (careful : Careful s a) : Fair s a t := by
  obtain ⟨room,fine⟩ := careful
  obtain rfl : t = next s a := step
  constructor
  · rintro idx during w pid rfl here kills
    obtain ⟨before,behind,windows,-,-⟩ := window_get_split here
    obtain ⟨counted,-⟩ := counted_events kept.counted room
    have member : w ∈ s.windows := by
      rw [windows]
      exact List.mem_append_right _ List.mem_cons_self
    unfold killed at kills
    cases kept.whole w member with
    | plain state is =>
      rw [state] at kills
      cases kills
    | external est task state is slot small client same later known =>
      rw [state] at kills
      dsimp only at kills
      by_cases lives : get_proc_info (during.foldl Processes.event s.processes) est.pid
      · rw [if_pos lives] at kills
        obtain rfl := Option.some.inj kills
        obtain ⟨other,there⟩ := Option.isSome_iff_exists.1 lives
        have names := counted.names _ _ there
        obtain rfl : other = task := by omega
        exact ⟨by omega,est,other,state,client,there⟩
      · rw [if_neg lives] at kills
        cases kills
  · rintro launch rfl
    simp only [next]
    obtain none | ⟨rfl,place⟩ := fine launch rfl
    · rw [window_add_external,none]
      exact .inr ⟨rfl,rfl,rfl⟩
    · cases found : external_window_alloc_slot s with
      | none =>
        rw [window_add_external,found]
        exact .inr ⟨rfl,rfl,rfl⟩
      | some slot =>
        obtain ⟨w,is,-,-,added⟩ := add_spawned kept found place
        rw [added]
        exact .inl ⟨w,rfl,is⟩

/-- In careful runs the tables agree in every state, and no step kills another task or leaves
    anything behind. -/
theorem desktop_sound {s : State} (reached : Reached (guarded desktop_system Careful) s) :
    Owned s ∧ ∀ a t, (guarded desktop_system Careful).step s a t → Fair s a t :=
  ⟨kept_owned (reached_kept reached),fun _ _ step => step_fair (reached_kept reached) step.1 step.2⟩

/-- The first task runs, and the desktop is the second one. -/
def started_desktop : State where
  slot_used := fun _ => false
  windows := []
  focused_window := -1
  states := 0
  processes := ⟨2,2,fun pid => if pid = 0 then some 0 else if pid = 1 then some 1 else none⟩

theorem started_counted : Counted started_desktop.processes := by
  refine ⟨rfl,by decide,fun pid task here => ?_⟩
  simp only [started_desktop] at here
  split at here
  · rename_i first
    obtain rfl := Option.some.inj here
    exact first
  · split at here
    · rename_i second
      obtain rfl := Option.some.inj here
      exact second
    · cases here

/-- Two windows, of which the first one is closed. -/
theorem desktop_sound_two : Owned (next (next (next started_desktop (.add_external .spawned)) (.add_external .spawned))
    (.close 0 [])) := by
  refine (desktop_sound ⟨started_desktop,[.add_external .spawned,.add_external .spawned,.close 0 []],
    ⟨rfl,rfl,rfl,rfl,started_counted⟩,.step ⟨rfl,?_⟩ (.step ⟨rfl,?_⟩ (.step ⟨rfl,?_⟩ (.done _)))⟩).1
  · exact ⟨by decide,fun launch is => .inr ⟨(Action.add_external.inj is).symm,by decide⟩⟩
  · exact ⟨by decide,fun launch is => .inr ⟨(Action.add_external.inj is).symm,by decide⟩⟩
  · exact ⟨by decide,fun launch is => nomatch is⟩

/-- After a failure the window is there, and the first task is what it takes for its client. -/
theorem slot_without_client : ¬ ∀ s, Reached desktop_system s → Owned s ∧ ∀ a t, desktop_system.step s a t → Fair s a t := by
  intro all
  obtain ⟨-,fair⟩ := all (next started_desktop (.add_external .not_spawned))
    ⟨started_desktop,[.add_external .not_spawned],⟨rfl,rfl,rfl,rfl,started_counted⟩,.step rfl (.done _)⟩
  exact ((fair (.close 0 []) _ rfl).kills 0 [] ⟨some ⟨0,0,false,none⟩,false,0,0⟩ 0 rfl rfl rfl).1 rfl

end MicroOS.Desktop

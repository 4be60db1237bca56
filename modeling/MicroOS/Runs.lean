import Mathlib.Tactic

/-!
Labelled transition systems and what holds along their runs. An invariant that
holds at the start and survives every step holds in every state reached
(`reached_invariant`); when the steps survive it only under a condition, it holds
along the runs whose steps all meet that condition (`guarded_invariant`).
-/
namespace MicroOS.Runs
universe u v w

/-- A transition system: where runs start and which states an action leads to. -/
structure System (State : Type u) (Action : Type v) where
  start : State → Prop
  step : State → Action → State → Prop

section
variable {State : Type u} {Action : Type v}

/-- `Run M as s t`: performing the actions `as` one after the other leads from `s` to `t`. -/
inductive Run (M : System State Action) : List Action → State → State → Prop
  | done (s : State) : Run M [] s s
  | step {s t u : State} {a : Action} {as : List Action} (first : M.step s a t) (rest : Run M as t u) :
      Run M (a :: as) s u

/-- The states reached from a start state by some run. -/
def Reached (M : System State Action) (t : State) : Prop :=
  ∃ s as, M.start s ∧ Run M as s t

/-- The same system restricted to the steps that meet a condition on the state
    before the step and the action. -/
def guarded (M : System State Action) (ok : State → Action → Prop) : System State Action where
  start := M.start
  step s a t := M.step s a t ∧ ok s a

variable {M : System State Action} {as : List Action} {s u : State}

theorem run_append {bs : List Action} {t : State}
    (first : Run M as s t) (second : Run M bs t u) : Run M (as ++ bs) s u := by
  induction first with
  | done s => exact second
  | step here _ ih => exact .step here (ih second)

theorem run_snoc {a : Action} {t : State} (first : Run M as s t) (last : M.step t a u) : Run M (as ++ [a]) s u :=
  run_append first (.step last (.done u))

theorem run_split {bs : List Action} (run : Run M (as ++ bs) s u) : ∃ t, Run M as s t ∧ Run M bs t u := by
  induction as generalizing s with
  | nil => exact ⟨s,.done s,run⟩
  | cons a as ih =>
    cases run with
    | step first rest =>
      obtain ⟨t,before,after⟩ := ih rest
      exact ⟨t,.step first before,after⟩

/-- The states that a function computes for one action after the other. -/
def follows (next : State → Action → Option State) : List Action → State → Option State
  | [], s => some s
  | a :: as, s => (next s a).bind (follows next as)

section
variable {M : System State Action}

variable {s t : State}

variable {next : State → Action → Option State} {ok : State → Action → Prop} {inv : State → Prop}

theorem follows_run (computes : ∀ s a t, next s a = some t → M.step s a t) {as : List Action} (done : follows next as s = some t) :
    Run M as s t := by
  induction as generalizing s with
  | nil =>
    cases done
    exact .done _
  | cons a as ih =>
    obtain ⟨u,first,rest⟩ := Option.bind_eq_some_iff.mp done
    exact .step (computes s a u first) (ih rest)

/-- What is read off the last state of a run that is computed holds in a state reached. -/
theorem follows_reached (computes : ∀ s a t, next s a = some t → M.step s a t) (begins : M.start s) (as : List Action) {β : Type w}
    (read : State → β) (b : β) (done : (follows next as s).map read = some b) : ∃ t, Reached M t ∧ read t = b := by
  obtain ⟨t,run,here⟩ := Option.map_eq_some_iff.mp done
  exact ⟨t,⟨s,as,begins,follows_run computes run⟩,here⟩

/-- What one step preserves, a run preserves. -/
theorem run_invariant {inv : State → Prop}
    (preserved : ∀ s a t, inv s → M.step s a t → inv t) {as : List Action} {s t : State}
    (run : Run M as s t) (holds : inv s) : inv t := by
  induction run with
  | done s => exact holds
  | step here _ ih => exact ih (preserved _ _ _ holds here)

/-- What holds at the start and what every step preserves holds in every state
    reached. -/
theorem reached_invariant {inv : State → Prop}
    (initial : ∀ s, M.start s → inv s) (preserved : ∀ s a t, inv s → M.step s a t → inv t)
    {t : State} (reached : Reached M t) : inv t := by
  obtain ⟨s,as,begins,run⟩ := reached
  exact run_invariant preserved run (initial s begins)

/-- The same along the runs whose steps all meet a condition. -/
theorem guarded_invariant {ok : State → Action → Prop} {inv : State → Prop} (initial : ∀ s, M.start s → inv s)
    (preserved : ∀ s a t, inv s → M.step s a t → ok s a → inv t)
    {t : State} (reached : Reached (guarded M ok) t) : inv t :=
  reached_invariant (M := guarded M ok) initial
    (fun s a t holds here => preserved s a t holds here.1 here.2) reached

/-- When a step from a state with the invariant leads to a state with a property exactly under the condition, and then keeps the
    invariant, the runs whose steps all meet the condition are the ones along which the property is kept. -/
theorem guarded_exact {prop : State → Prop} (initial : ∀ s, M.start s → inv s) (holds : ∀ s, inv s → prop s)
    (steps : ∀ s a t, inv s → M.step s a t → (prop t ↔ ok s a) ∧ (ok s a → inv t))
    (reached : Reached (guarded M ok) t) : prop t ∧ ∀ a u, M.step t a u → (prop u ↔ ok t a) := by
  have invariant : inv t := guarded_invariant initial (fun s a u now step => (steps s a u now step).2) reached
  exact ⟨holds t invariant,fun a u step => (steps t a u invariant step).1⟩

/-- Where every step brings a measure down, it bounds the length of a run. -/
theorem run_length {measure : State → Nat}
    (shrinks : ∀ s a t, inv s → M.step s a t → inv t ∧ measure t < measure s) {as : List Action}
    (run : Run M as s t) (holds : inv s) : inv t ∧ as.length + measure t ≤ measure s := by
  induction run with
  | done s => exact ⟨holds,by simp⟩
  | step here _ ih =>
    obtain ⟨kept,less⟩ := shrinks _ _ _ holds here
    obtain ⟨last,bound⟩ := ih kept
    refine ⟨last,?_⟩
    rw [List.length_cons]
    omega

/-- Where every state short of a goal has a step that brings it nearer, a run leads there. -/
theorem reaches_goal {inv goal : State → Prop} {measure : State → Nat}
    (progress : ∀ s, inv s → goal s ∨ ∃ a t, M.step s a t ∧ inv t ∧ measure t < measure s) {s : State}
    (holds : inv s) : ∃ as t, Run M as s t ∧ inv t ∧ goal t := by
  induction n : measure s using Nat.strong_induction_on generalizing s with
  | _ n ih =>
    obtain here | ⟨a,t,first,kept,less⟩ := progress s holds
    · exact ⟨[],s,.done s,holds,here⟩
    · obtain ⟨as,u,rest,kept,there⟩ := ih _ (n ▸ less) kept rfl
      exact ⟨a :: as,u,.step first rest,kept,there⟩

/-- A run of the guarded system is a run of the system. -/
theorem guarded_run {as : List Action} (run : Run (guarded M ok) as s t) : Run M as s t := by
  induction run with
  | done s => exact .done s
  | step here _ ih => exact .step here.1 ih

end

end
end MicroOS.Runs

import MicroOS.Runs

/-!
What one part of a system sees of a run. When a step changes a part's view only by the
event that the step holds for it (`local_respect`), and equal events change equal views
equally (`consistent`), the events alone decide what the part sees after a run:
`same_view`.
-/
namespace MicroOS.Unwinding
open Runs
universe u v w x y

section
variable {State : Type u} {Action : Type v} {Part : Type w} {View : Type x} {Event : Type y}

/-- The events that a run's actions hold for a part. -/
def events (event : Part → Action → Option Event) (i : Part) (as : List Action) : List Event :=
  as.filterMap (event i)

/-- The invariant is there for what a step needs of the state before. -/
structure Unwinds (M : System State Action) (inv : State → Prop) (view : Part → State → View)
    (event : Part → Action → Option Event) : Prop where
  preserved : ∀ s a t, inv s → M.step s a t → inv t
  local_respect : ∀ i s a t, inv s → M.step s a t → event i a = none → view i t = view i s
  consistent : ∀ i s a t s' b t' e, inv s → M.step s a t → inv s' → M.step s' b t' →
    event i a = some e → event i b = some e → view i s = view i s' → view i t = view i t'

variable {M : System State Action} {inv : State → Prop} {view : Part → State → View}
  {event : Part → Action → Option Event} {i : Part}

theorem events_cons (a : Action) (as : List Action) :
    events event i (a :: as) = (event i a).toList ++ events event i as := by
  rw [events,List.filterMap_cons]
  cases event i a <;> rfl

theorem events_append (as bs : List Action) : events event i (as ++ bs) = events event i as ++ events event i bs :=
  List.filterMap_append

/-- A run without an event for a part leaves its view. -/
theorem silent_view (unwinds : Unwinds M inv view event) {as : List Action} {s t : State} (run : Run M as s t)
    (holds : inv s) (silent : events event i as = []) : view i t = view i s := by
  induction run with
  | done s => rfl
  | @step s t u a as first rest ih =>
    rw [events_cons,List.append_eq_nil_iff] at silent
    have none_ : event i a = none := by
      cases same : event i a with
      | none => rfl
      | some e => simp [same] at silent
    exact (ih (unwinds.preserved _ _ _ holds first) silent.2).trans (unwinds.local_respect _ _ _ _ holds first none_)

/-- The first event for a part: silence, the action that holds it, and the rest. -/
theorem first_event (unwinds : Unwinds M inv view event) {as : List Action} {s t : State} {e : Event} {es : List Event}
    (run : Run M as s t) (holds : inv s) (same : events event i as = e :: es) :
    ∃ u a v bs, inv u ∧ view i u = view i s ∧ M.step u a v ∧ event i a = some e ∧ Run M bs v t ∧
      events event i bs = es := by
  induction run with
  | done s => simp [events] at same
  | @step s t u a as first rest ih =>
    rw [events_cons] at same
    cases here : event i a with
    | none =>
      rw [here] at same
      obtain ⟨w,b,x,bs,holds',view_,step,event_,run,same⟩ := ih (unwinds.preserved _ _ _ holds first) same
      exact ⟨w,b,x,bs,holds',view_.trans (unwinds.local_respect _ _ _ _ holds first here),step,event_,run,same⟩
    | some f =>
      rw [here] at same
      obtain ⟨rfl,rest_same⟩ := List.cons.inj (show f :: events event i as = e :: es from same)
      exact ⟨s,a,t,as,holds,rfl,first,here,rest,rest_same⟩

/-- Runs with the same events for a part, from states that look the same to it, end in
    states that look the same to it. -/
theorem same_view (unwinds : Unwinds M inv view event) {as bs : List Action} {s t s' t' : State} (run : Run M as s t)
    (run' : Run M bs s' t') (holds : inv s) (holds' : inv s') (same : events event i as = events event i bs)
    (alike : view i s = view i s') : view i t = view i t' := by
  generalize listed : events event i bs = es at same
  induction es generalizing as bs s s' with
  | nil =>
    have left := silent_view unwinds run holds same
    have right := silent_view unwinds run' holds' listed
    exact left.trans (alike.trans right.symm)
  | cons e es ih =>
    obtain ⟨u,a,v,as,here,before,step,event_,rest,same⟩ := first_event unwinds run holds same
    obtain ⟨u',b,v',bs,here',before',step',event_',rest',same'⟩ := first_event unwinds run' holds' listed
    have looks : view i u = view i u' := before.trans (alike.trans before'.symm)
    have next := unwinds.consistent _ _ _ _ _ _ _ _ here step here' step' event_ event_' looks
    exact ih rest rest' (unwinds.preserved _ _ _ here step) (unwinds.preserved _ _ _ here' step') next same' same

end
end MicroOS.Unwinding

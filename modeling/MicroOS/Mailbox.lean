import Mathlib.Data.List.ReduceOption
import Mathlib.Tactic

/-!
A mailbox for one thing: putting something in replaces what is there, and taking empties it. What a run takes out is what was put in
last before (`answers_periods`), so nothing is lost while no more than one thing comes between two takes (`answers_once`).
-/
namespace MicroOS.Mailbox
variable {α : Type*}

/-- What is put in, one thing after another, and whether the mailbox is emptied after it. -/
structure Turn (α : Type*) where
  puts : List α
  taken : Bool

def put (slot : Option α) (puts : List α) : Option α := puts.getLast?.or slot

/-- What is found in the mailbox when it is emptied. -/
def answers : Option α → List (Turn α) → List (Option α)
  | _,[] => []
  | slot,turn :: turns =>
    if turn.taken then put slot turn.puts :: answers none turns else answers (put slot turn.puts) turns

/-- What was put in before each time that the mailbox is emptied. -/
def periods : List α → List (Turn α) → List (List α)
  | _,[] => []
  | before,turn :: turns =>
    if turn.taken then (before ++ turn.puts) :: periods [] turns else periods (before ++ turn.puts) turns

/-- What was put in since the mailbox was emptied last. -/
def waiting : List α → List (Turn α) → List α
  | before,[] => before
  | before,turn :: turns => if turn.taken then waiting [] turns else waiting (before ++ turn.puts) turns

theorem put_last (before puts : List α) : put before.getLast? puts = (before ++ puts).getLast? :=
  List.getLast?_append.symm

theorem answers_periods (before : List α) (turns : List (Turn α)) :
    answers before.getLast? turns = (periods before turns).map List.getLast? := by
  induction turns generalizing before with
  | nil => rfl
  | cons turn turns ih =>
    rw [answers,periods,put_last]
    split
    · rw [List.map_cons]
      exact congrArg _ (ih [])
    · exact ih _

/-- Everything that was put in lies in one period, or is still waiting, and in the order in which it was put in. -/
theorem periods_waiting (before : List α) (turns : List (Turn α)) :
    (periods before turns).flatten ++ waiting before turns = before ++ turns.flatMap Turn.puts := by
  induction turns generalizing before with
  | nil => simp [periods,waiting]
  | cons turn turns ih =>
    rw [periods,waiting,List.flatMap_cons,← List.append_assoc]
    split
    · rw [List.flatten_cons,List.append_assoc,ih,List.nil_append]
    · exact ih _

theorem last_once {periods : List (List α)} (few : ∀ p ∈ periods, p.length ≤ 1) :
    (periods.map List.getLast?).reduceOption = periods.flatten := by
  induction periods with
  | nil => rfl
  | cons p periods ih =>
    have rest := ih fun q member => few q (List.mem_cons_of_mem _ member)
    rw [List.map_cons,List.flatten_cons,← rest]
    match p,few p List.mem_cons_self with
    | [],_ => rfl
    | [a],_ => rfl

/-- Nothing is lost when at most one thing is put in before each take. -/
theorem answers_once {before : List α} {turns : List (Turn α)} (few : ∀ p ∈ periods before turns, p.length ≤ 1) :
    (answers before.getLast? turns).reduceOption ++ waiting before turns = before ++ turns.flatMap Turn.puts := by
  rw [answers_periods,last_once few,periods_waiting]

theorem answers_put {before : List α} {turns : List (Turn α)} {a : α} (found : some a ∈ answers before.getLast? turns) :
    a ∈ before ++ turns.flatMap Turn.puts := by
  rw [answers_periods] at found
  obtain ⟨p,period,last⟩ := List.mem_map.1 found
  rw [← periods_waiting]
  exact List.mem_append_left _ (List.mem_flatten_of_mem period (List.mem_of_getLast? last))

/-- A mailbox that shows a value of its own when it is empty. -/
theorem reduce_default [DecidableEq α] {empty : α} {found : List (Option α)} (real : ∀ a, some a ∈ found → a ≠ empty) :
    (found.map (·.getD empty)).filter (· ≠ empty) = found.reduceOption := by
  induction found with
  | nil => rfl
  | cons o found ih =>
    have rest := ih fun a member => real a (List.mem_cons_of_mem _ member)
    cases o with
    | none =>
      rw [List.reduceOption_cons_of_none,← rest]
      simp
    | some a =>
      rw [List.reduceOption_cons_of_some,← rest]
      simp [real a List.mem_cons_self]

end MicroOS.Mailbox

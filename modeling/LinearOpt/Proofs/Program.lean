import LinearOpt.Program
import LinearOpt.Proofs.Problem.Refusals
import LinearOpt.Proofs.Simplex.Failures

/-!
# What a program shows

A program keeps the result of its last solve, and the problem goes on to change.  The result has to
be that of the problem as it is now.

* `Program.After` are the programs that a sequence of calls leads to, with what solved them last.
* `Program.solveWith_cases` says all that a solve does to a program: it leaves no result, or it
  stores an outcome of the solver for the problem.
* `Program.Consistent` is about the parts of a result, for any number type and any solver.
  `Program.Truthful` is about the problem: what the two phase method found out about it is true.
* `Program.edit_error` is about edits that are refused.  They leave the problem, but not the result.
-/

namespace LinearOpt

/-! ## Solutions -/

theorem Problem.length_of_checkSolution {F : Type} {p : Problem F} {x : List F}
    (h : p.checkSolution x = .ok ()) : x.length = p.variableCount := by
  by_contra hne
  rw [Problem.checkSolution, if_neg hne] at h
  cases h

/-- A solution has a value for every variable, and its cost is the product with the costs. -/
theorem Solution.of_eq_ok {F : Type} [Scalar F] {p : Problem F} {values : List F}
    {solution : Solution F} (h : Solution.of p values = .ok solution) :
    solution.values = values ∧ values.length = p.variableCount ∧
      Scalar.dot p.cost values = .ok solution.objectiveValue := by
  obtain ⟨value, hvalue, h⟩ := bind_eq_ok.mp h
  cases h
  unfold Problem.objectiveValue at hvalue
  cases hcheck : p.checkSolution values with
  | error e =>
    rw [hcheck] at hvalue
    cases hvalue
  | ok _ =>
    rw [hcheck] at hvalue
    exact ⟨rfl, Problem.length_of_checkSolution hcheck, liftM_eq_ok.mp hvalue⟩

namespace Program

/-! ## Sequences of calls -/

/-- What solved a program last. -/
inductive LastSolver where
  | none
  | twoPhase
  | other

section Calls

variable {F : Type} [Scalar F]

/-- The programs that a sequence of calls leads to.  A call that is refused is a call too. -/
inductive After : LastSolver → Program F → Prop where
  | empty (objective : Objective) : After .none (empty objective)
  | ofProblem {problem : Problem F} (h : problem.Reachable) : After .none (ofProblem problem)
  | ofMatrix {objective : Objective} {nonNegative : Bool} {a : List (List F)} {b c : List F}
      {relations : List Relation} {p : Program F}
      (h : ofMatrix objective nonNegative a b c relations = .ok p) : After .none p
  | edit {last : LastSolver} {p : Program F} (hp : After last p) {α : Type}
      {e : Edit (Problem F) α} (he : Problem.PublicEdit e) : After last (stateAfter (edit e) p)
  | configure {last : LastSolver} {p : Program F} (hp : After last p)
      (change : Configuration → Configuration) : After last (p.configure change)
  | clear {last : LastSolver} {p : Program F} (hp : After last p) : After last p.clear
  | solve {last : LastSolver} {p : Program F} (hp : After last p) (fuel : ℕ) :
      After .twoPhase (p.solve fuel).1
  | solveWith {last : LastSolver} {p : Program F} (hp : After last p) (solver : Solver F) :
      After .other (p.solveWith solver).1

omit [Scalar F] in
/-- An edit discards the result, whatever comes of it. -/
theorem stateAfter_edit {α : Type} (e : Edit (Problem F) α) (p : Program F) :
    stateAfter (edit e) p = { p.invalidated with problem := stateAfter e p.problem } := by
  unfold stateAfter edit
  dsimp only [invalidated]
  cases e p.problem <;> rfl

theorem ofMatrix_eq_ok {objective : Objective} {nonNegative : Bool} {a : List (List F)}
    {b c : List F} {relations : List Relation} {p : Program F}
    (h : Program.ofMatrix objective nonNegative a b c relations = .ok p) :
    ∃ problem, Problem.ofMatrix objective nonNegative a b c relations = .ok problem ∧
      p = Program.ofProblem problem := by
  obtain ⟨problem, hproblem, h⟩ := bind_eq_ok.mp h
  cases h
  exact ⟨problem, hproblem, rfl⟩

/-! ## What a solve does -/

/-- `q` is `p` with this outcome as its result. -/
inductive Stores (p : Program F) : Outcome (List F) → Program F → Prop where
  | optimum {values : List F} {solution : Solution F}
      (h : Solution.of p.problem values = .ok solution) :
      Stores p (.optimum values) { p with status := some .optimal, optimum := some solution }
  | other {outcome : Outcome (List F)} (h : outcome.status ≠ .optimal) :
      Stores p outcome { p with status := some outcome.status, optimum := none }

/-- Storing an outcome fails only before anything is stored. -/
theorem store_cases (p : Program F) (outcome : Outcome (List F)) :
    (∃ e, (store outcome).run p.invalidated = .error e p.invalidated) ∨
      ∃ next, (store outcome).run p.invalidated = .ok (outcome.status == .optimal) next ∧
        p.Stores outcome next := by
  cases outcome with
  | optimum values =>
    change (∃ e, EStateM.bind (liftM (Solution.of p.problem values) : Edit (Program F) _) _ _ = _) ∨
      ∃ next, EStateM.bind (liftM (Solution.of p.problem values) : Edit (Program F) _) _ _ = _ ∧ _
    cases hsolution : Solution.of p.problem values with
    | error e => exact Or.inl ⟨e, rfl⟩
    | ok solution => exact Or.inr ⟨_, rfl, .optimum hsolution⟩
  | infeasible => exact Or.inr ⟨_, rfl, .other nofun⟩
  | unbounded => exact Or.inr ⟨_, rfl, .other nofun⟩
  | infeasibleOrUnbounded => exact Or.inr ⟨_, rfl, .other nofun⟩
  | error => exact Or.inr ⟨_, rfl, .other nofun⟩

/-- A solve leaves no result when the solver fails, and when it returns a vector that is no solution
of the problem.  Else it stores what the solver returns. -/
theorem solveWith_cases (solver : Solver F) (p : Program F) :
    (∃ e, (p.solveWith solver).2.outcome = .error e ∧ (p.solveWith solver).1 = p.invalidated) ∨
      ∃ outcome, (solver p.problem p.configuration).outcome = .ok outcome ∧
        (p.solveWith solver).2.outcome = .ok (outcome.status == .optimal) ∧
        p.Stores outcome (p.solveWith solver).1 := by
  have hrun : solver p.invalidated.problem p.invalidated.configuration =
    solver p.problem p.configuration := rfl
  unfold solveWith
  dsimp only
  rw [hrun]
  cases (solver p.problem p.configuration).outcome with
  | error e => exact Or.inl ⟨e, rfl, rfl⟩
  | ok outcome =>
    dsimp only
    rcases p.store_cases outcome with ⟨e, hstore⟩ | ⟨next, hstore, hstores⟩
    · rw [hstore]
      exact Or.inl ⟨e, rfl, rfl⟩
    · rw [hstore]
      exact Or.inr ⟨outcome, rfl, rfl, hstores⟩

theorem Stores.status_eq {p q : Program F} {outcome : Outcome (List F)} (h : p.Stores outcome q) :
    q.status = some outcome.status := by
  cases h <;> rfl

theorem Stores.problem_eq {p q : Program F} {outcome : Outcome (List F)} (h : p.Stores outcome q) :
    q.problem = p.problem := by
  cases h <;> rfl

/-- A solve returns whether there is an optimum now. -/
theorem solveWith_eq_ok_true_iff (solver : Solver F) (p : Program F) :
    (p.solveWith solver).2.outcome = .ok true ↔
      (p.solveWith solver).1.status = some .optimal := by
  rcases p.solveWith_cases solver with ⟨e, hrun, hnone⟩ | ⟨outcome, -, hrun, hstores⟩
  · rw [hrun, hnone]
    exact ⟨nofun, nofun⟩
  · rw [hrun, hstores.status_eq]
    simp

theorem problem_solveWith (solver : Solver F) (p : Program F) :
    (p.solveWith solver).1.problem = p.problem := by
  rcases p.solveWith_cases solver with ⟨e, -, hnone⟩ | ⟨outcome, -, -, hstores⟩
  · rw [hnone]
    rfl
  · exact hstores.problem_eq

theorem After.reachable {last : LastSolver} {p : Program F} (h : p.After last) :
    p.problem.Reachable := by
  induction h with
  | empty objective => exact .empty objective
  | ofProblem h => exact h
  | ofMatrix h =>
    obtain ⟨problem, hproblem, rfl⟩ := ofMatrix_eq_ok h
    exact .ofMatrix hproblem
  | edit _ he ih =>
    rw [stateAfter_edit]
    exact .edit he ih
  | configure _ change ih => exact ih
  | clear _ ih => exact .cleared ih
  | solve _ fuel ih =>
    rw [Program.solve, problem_solveWith]
    exact ih
  | solveWith _ solver ih =>
    rw [problem_solveWith]
    exact ih

/-! ## The parts of a result -/

/-- There is a solution and a cost exactly if the status says so, and these are for the problem as
it is now. -/
structure Consistent (p : Program F) : Prop where
  status_iff : p.status = some .optimal ↔ ∃ values, p.solution = .ok values
  solution_iff : (∃ values, p.solution = .ok values) ↔ ∃ value, p.objectiveValue = .ok value
  current : ∀ values value, p.solution = .ok values → p.objectiveValue = .ok value →
    values.length = p.problem.variableCount ∧ Scalar.dot p.problem.cost values = .ok value

theorem consistent_of_optimum_eq_none {p : Program F} (hstatus : p.status ≠ some .optimal)
    (hoptimum : p.optimum = none) : p.Consistent := by
  have hsolution : p.solution = .error .missingSolution := by rw [solution, hoptimum]
  have hvalue : p.objectiveValue = .error .missingSolution := by rw [objectiveValue, hoptimum]
  exact
    { status_iff := by simp [hstatus, hsolution]
      solution_iff := by simp [hsolution, hvalue]
      current := by simp [hsolution] }

theorem Stores.consistent {p q : Program F} {outcome : Outcome (List F)} (h : p.Stores outcome q) :
    q.Consistent := by
  cases h with
  | @optimum values solution hsolution =>
    obtain ⟨rfl, hlength, hdot⟩ := Solution.of_eq_ok hsolution
    refine ⟨⟨fun _ => ⟨_, rfl⟩, fun _ => rfl⟩, ⟨fun _ => ⟨_, rfl⟩, fun _ => ⟨_, rfl⟩⟩, ?_⟩
    intro values value hvalues hvalue
    cases hvalues
    cases hvalue
    exact ⟨hlength, hdot⟩
  | other hne =>
    refine consistent_of_optimum_eq_none ?_ rfl
    simpa using hne

theorem consistent_solveWith (solver : Solver F) (p : Program F) :
    (p.solveWith solver).1.Consistent := by
  rcases p.solveWith_cases solver with ⟨e, -, hnone⟩ | ⟨outcome, -, -, hstores⟩
  · rw [hnone]
    exact consistent_of_optimum_eq_none nofun rfl
  · exact hstores.consistent

theorem After.consistent {last : LastSolver} {p : Program F} (h : p.After last) : p.Consistent := by
  induction h with
  | empty objective => exact consistent_of_optimum_eq_none nofun rfl
  | ofProblem h => exact consistent_of_optimum_eq_none nofun rfl
  | ofMatrix h =>
    obtain ⟨problem, -, rfl⟩ := ofMatrix_eq_ok h
    exact consistent_of_optimum_eq_none nofun rfl
  | edit _ he ih =>
    rw [stateAfter_edit]
    exact consistent_of_optimum_eq_none nofun rfl
  | configure _ change ih => exact ⟨ih.status_iff, ih.solution_iff, ih.current⟩
  | clear _ ih => exact consistent_of_optimum_eq_none nofun rfl
  | @solve _ p _ fuel _ => exact p.consistent_solveWith (twoPhase fuel)
  | @solveWith _ p _ solver _ => exact p.consistent_solveWith solver

end Calls

/-! ## What is said of the problem -/

open Problem

/-- The status is true of the problem as it is now, and so is the solution that comes with it. -/
structure Truthful (p : Program ℚ) : Prop where
  optimal : p.status = some .optimal → ∃ values, p.solution = .ok values ∧
    p.objectiveValue = .ok (linear p.problem.cost (valuation values)) ∧
      p.problem.Answers (.optimum values)
  infeasible : p.status = some .infeasible → p.problem.Answers .infeasible
  unbounded : p.status = some .unbounded → p.problem.Answers .unbounded

variable {p q : Program ℚ}

theorem truthful_of_status_eq_none (h : p.status = none) : p.Truthful := by
  constructor <;>
  · intro hstatus
    rw [h] at hstatus
    cases hstatus

theorem Stores.truthful {outcome : Outcome (List ℚ)} (h : p.Stores outcome q)
    (hanswers : p.problem.Answers outcome) : q.Truthful := by
  cases h with
  | @optimum values solution hsolution =>
    obtain ⟨rfl, hlength, hdot⟩ := Solution.of_eq_ok hsolution
    rw [dot_eq hlength.symm, Except.ok.injEq] at hdot
    exact
      { optimal := fun _ => ⟨_, rfl, congrArg Except.ok hdot.symm, hanswers⟩
        infeasible := nofun
        unbounded := nofun }
  | other hne =>
    cases outcome with
    | optimum values => exact absurd rfl hne
    | infeasible =>
      exact
        { optimal := nofun
          infeasible := fun _ => hanswers
          unbounded := nofun }
    | unbounded =>
      exact
        { optimal := nofun
          infeasible := nofun
          unbounded := fun _ => hanswers }
    | infeasibleOrUnbounded => exact hanswers.elim
    | error => exact hanswers.elim

/-- What the two phase method returns is true, so what is stored of it is true. -/
theorem truthful_solve (hp : p.problem.Reachable) (fuel : ℕ) : (p.solve fuel).1.Truthful := by
  rcases p.solveWith_cases (twoPhase fuel) with ⟨e, -, hnone⟩ | ⟨outcome, hrun, -, hstores⟩
  · rw [solve, hnone]
    exact truthful_of_status_eq_none rfl
  · exact hstores.truthful (hp.wellFormed.answers_of_outcome hrun)

theorem After.truthful {last : LastSolver} (h : p.After last) (hlast : last = .twoPhase) :
    p.Truthful := by
  induction h with
  | empty objective => cases hlast
  | ofProblem h => cases hlast
  | ofMatrix h => cases hlast
  | edit _ he ih =>
    rw [stateAfter_edit]
    exact truthful_of_status_eq_none rfl
  | configure _ change ih => exact ⟨(ih hlast).optimal, (ih hlast).infeasible, (ih hlast).unbounded⟩
  | clear _ ih => exact truthful_of_status_eq_none rfl
  | solve hp fuel _ => exact truthful_solve hp.reachable fuel
  | solveWith _ solver _ => cases hlast

/-- No sequence of calls leads to a program that shows an inconsistent or outdated result.  Solving
leaves the problem as it is, and returns whether there is an optimum to show. -/
theorem result_is_current :
    (∀ {F : Type} [Scalar F] {last : LastSolver} {p : Program F}, p.After last →
      p.Consistent ∧ (∀ fuel, (p.solve fuel).1.problem = p.problem) ∧
        ∀ solver, (p.solveWith solver).1.problem = p.problem ∧
          ((p.solveWith solver).2.outcome = .ok true ↔
            (p.solveWith solver).1.status = some .optimal)) ∧
      ∀ {p : Program ℚ}, p.After .twoPhase → p.Truthful := by
  refine ⟨fun h => ⟨h.consistent, fun fuel => ?_, fun solver => ⟨?_, ?_⟩⟩, fun h => h.truthful rfl⟩
  · exact problem_solveWith (twoPhase fuel) _
  · exact problem_solveWith solver _
  · exact solveWith_eq_ok_true_iff solver _

/-- As large as possible, but at most three. -/
def capped : Program ℚ :=
  { problem := { objective := .maximize, cost := [1], variableBounds := [⟨none, some 3⟩] } }

theorem after_capped : capped.After .none :=
  .edit (.edit (.empty .maximize) (.addVariable ⟨none, some 3⟩)) (.setCost 0 1 false)

theorem result_is_current_capped :
    (capped.solve 2).1.status = some .optimal ∧ (capped.solve 2).1.Consistent ∧
      (capped.solve 2).1.Truthful :=
  ⟨by decide +kernel, (result_is_current.1 (.solve after_capped 2)).1,
    result_is_current.2 (.solve after_capped 2)⟩

/-! ## Edits that are refused -/

section Refused

variable {F : Type} [Scalar F] {last : LastSolver} {p q : Program F} {α : Type}
  {e : Edit (Problem F) α} {f : Failure}

theorem edit_error (he : PublicEdit e) (h : edit e p = .error f q) : q = p.invalidated := by
  unfold edit at h
  dsimp only at h
  cases hrun : e p.invalidated.problem with
  | ok a problem =>
    rw [hrun] at h
    cases h
  | error failure problem =>
    rw [hrun] at h
    cases h
    rw [he.eq_of_error hrun]

theorem Consistent.optimum_eq_none (h : p.Consistent) (hstatus : p.status = none) :
    p.optimum = none := by
  cases hoptimum : p.optimum with
  | none => rfl
  | some solution =>
    have hsolution : p.solution = .ok solution.values := by rw [Program.solution, hoptimum]
    have hoptimal : p.status = some .optimal := h.status_iff.mpr ⟨_, hsolution⟩
    rw [hstatus] at hoptimal
    cases hoptimal

theorem Consistent.invalidated_eq_self_iff (h : p.Consistent) :
    p.invalidated = p ↔ p.status = none := by
  constructor
  · intro hself
    rw [← hself]
    rfl
  · intro hstatus
    rw [invalidated, ← h.optimum_eq_none hstatus, ← hstatus]

/-- The problem and the options are as before, but the result is gone, although it still was that of
the problem.  Only a program that showed no status is as before. -/
theorem refused_edit_discards (hp : p.After last) (he : PublicEdit e)
    (h : edit e p = .error f q) :
    q.problem = p.problem ∧ q.configuration = p.configuration ∧ q.status = none ∧
      q.solution = .error .missingSolution ∧ q.objectiveValue = .error .missingSolution ∧
      (q = p ↔ p.status = none) := by
  obtain rfl := edit_error he h
  exact ⟨rfl, rfl, rfl, rfl, rfl, hp.consistent.invalidated_eq_self_iff⟩

end Refused

theorem refused_edit_discards_capped :
    (capped.solve 2).1.After .twoPhase ∧ PublicEdit (F := ℚ) (addConstraint .free) ∧
      ∃ f q, edit (addConstraint .free) (capped.solve 2).1 = .error f q ∧
        q.status = none ∧ (q = (capped.solve 2).1 ↔ (capped.solve 2).1.status = none) := by
  obtain ⟨-, -, hstatus, -, -, hsame⟩ := refused_edit_discards (.solve after_capped 2)
    (.addConstraint .free) (f := .refused .invalidConstraint)
    (q := (capped.solve 2).1.invalidated) rfl
  exact ⟨.solve after_capped 2, .addConstraint .free, _, _, rfl, hstatus, hsame⟩

/-- A constraint without bounds is refused, and the optimum is not shown any more. -/
theorem refused_edit_forgets_capped :
    (capped.solve 2).1.After .twoPhase ∧ (capped.solve 2).1.status = some .optimal ∧
      edit (addConstraint .free) (capped.solve 2).1 =
        .error (.refused .invalidConstraint) (capped.solve 2).1.invalidated ∧
      (capped.solve 2).1.invalidated.problem = (capped.solve 2).1.problem ∧
      (capped.solve 2).1.invalidated.status ≠ (capped.solve 2).1.status :=
  ⟨.solve after_capped 2, by decide +kernel, rfl, rfl, by decide +kernel⟩

end Program

end LinearOpt

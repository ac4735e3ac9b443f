import LinearOpt.Proofs.Canonical.Equivalent
import LinearOpt.Proofs.Simplex.Certificate

/-!
# The two phase method answers the problem

`Problem.Answers` says what an outcome claims about a problem: an optimum is feasible and nothing
feasible is better, an infeasible problem has no feasible vector, and an unbounded one has feasible
vectors of any cost.

* `CanonicalForm.solve_cases` carries the ends of the phases to the canonical form, with what
  certifies them.
* `Represents.answers_optimum`, `Represents.answers_infeasible` and `Represents.answers_unbounded`
  carry the certificates back to the problem.
* `WellFormed.twoPhase_cases` puts this together: either the method is still pivoting when the fuel
  is spent, or it answers the problem.  `twoPhase_answers` says so of every problem that can be
  built.
-/

namespace LinearOpt

open Matrix

/-! ## Answers -/

/-- The first cost is strictly better than the second. -/
def Objective.Better : Objective → ℚ → ℚ → Prop
  | .minimize, x, y => x < y
  | .maximize, x, y => y < x

/-- In terms of the canonical cost, better is always less. -/
theorem Objective.better_iff (o : Objective) (x y shift : ℚ) :
    o.Better (o.sign * x + shift) (o.sign * y + shift) ↔ x < y := by
  cases o with
  | minimize =>
    unfold Better sign
    constructor <;> intro h <;> linarith
  | maximize =>
    unfold Better sign
    constructor <;> intro h <;> linarith

/-- Every cost is the image of a canonical cost. -/
theorem Objective.exists_sign_mul_add (o : Objective) (y shift : ℚ) :
    ∃ x, o.sign * x + shift = y := by
  refine ⟨o.sign * (y - shift), ?_⟩
  cases o with
  | minimize =>
    unfold sign
    ring
  | maximize =>
    unfold sign
    ring

namespace Problem

/-- What an outcome says about a problem is true. -/
def Answers (p : Problem ℚ) : Outcome (List ℚ) → Prop
  | .optimum x => x.length = p.variableCount ∧ p.isFeasible x = .ok true ∧
      ∀ z, p.Feasible z → ¬ p.objective.Better (linear p.cost z) (linear p.cost (valuation x))
  | .infeasible => ∀ z, ¬ p.Feasible z
  | .unbounded => (∃ z, p.Feasible z) ∧
      ∀ bound, ∃ z, p.Feasible z ∧ p.objective.Better (linear p.cost z) bound
  | .infeasibleOrUnbounded => False
  | .error => False

variable {p : Problem ℚ}

/-- Every feasible vector can be written down. -/
theorem Feasible.exists_list (hp : p.WellFormed) {z : ℕ → ℚ} (hz : p.Feasible z) :
    ∃ y, p.isFeasible y = .ok true ∧ p.objectiveValue y = .ok (linear p.cost z) := by
  have hvalues : ∀ j < p.variableCount,
      z j = valuation (List.ofFn fun j : Fin p.variableCount => z j) j := by
    intro j hj
    exact (valuation_ofFn (fun j : Fin p.variableCount => z j) ⟨j, hj⟩).symm
  refine ⟨List.ofFn fun j : Fin p.variableCount => z j, ?_, ?_⟩
  · rw [isFeasible_iff hp]
    exact ⟨List.length_ofFn, hz.congr hp hvalues⟩
  · rw [objectiveValue_eq List.length_ofFn, linear_congr hvalues]

end Problem

/-! ## Solving the canonical form -/

namespace CanonicalForm

variable {c : CanonicalForm ℚ} {m n : ℕ} {form : StandardForm m n}

/-- One of the two phases makes at least this many pivots. -/
def KeepsPivoting (c : CanonicalForm ℚ) (verbosity : Verbosity) (fuel : ℕ) : Prop :=
  ∃ first, c.tableau = .ok first ∧
    (first.MakesPivots fuel ∨
      ∃ redundant feasible second,
        (first.phaseOne verbosity fuel).outcome = .ok (.feasible redundant, feasible) ∧
        feasible.startPhaseTwo = .ok second ∧ second.MakesPivots fuel)

theorem solve_cases (h : c.tableau = form.start) (verbosity : Verbosity) (fuel : ℕ) :
    (c.solve verbosity fuel).outcome = .error .outOfFuel ∧ c.KeepsPivoting verbosity fuel ∨
      (∃ duals, form.Infeasible duals ∧ (c.solve verbosity fuel).outcome = .ok .infeasible) ∨
      (∃ x duals, form.Optimal x duals ∧
        (c.solve verbosity fuel).outcome = .ok (.optimum (List.ofFn x))) ∨
      ∃ x direction, 0 ≤ x ∧ form.matrix *ᵥ x = form.values ∧ form.Unbounded direction ∧
        (c.solve verbosity fuel).outcome = .ok .unbounded := by
  have hstart := h.trans StandardForm.start_eq
  unfold solve
  rw [Logged.outcome_bind, hstart, Logged.outcome_liftM_ok, ok_bind, Logged.outcome_bind]
  rcases StandardForm.phaseOne_cases (p := form) verbosity fuel with
    ⟨hfuel, hmakes⟩ | ⟨last, hfeasible, hopt, hpos, hend⟩ | ⟨B, redundant, hB, hend⟩
  · rw [hfuel]
    exact Or.inl ⟨rfl, _, hstart, Or.inl hmakes⟩
  · rw [hend]
    exact Or.inr (Or.inl ⟨_, hfeasible.infeasible hopt hpos, rfl⟩)
  · have hdetail : (Tableau.detail verbosity do return .feasibleBasis redundant.length :
        Logged ℚ Unit).outcome = .ok () := StandardForm.outcome_detail verbosity rfl
    rw [hend]
    simp only [ok_bind, Logged.outcome_bind, hdetail, StandardForm.startPhaseTwo_eq,
      Logged.outcome_liftM_ok]
    rcases StandardForm.phaseTwo_cases verbosity fuel hB with
      ⟨hfuel, hmakes⟩ | ⟨last, hlast, hopt, hend'⟩ | ⟨last, j, hlast, hunb, hend'⟩
    · rw [hfuel]
      exact Or.inl ⟨rfl, _, hstart, Or.inr
        ⟨redundant, _, _, hend, StandardForm.startPhaseTwo_eq B, hmakes⟩⟩
    · rw [hend']
      exact Or.inr (Or.inr (Or.inl ⟨_, _, hlast.optimal hopt, rfl⟩))
    · rw [hend']
      lift j to Fin n using hunb.lt
      exact Or.inr (Or.inr (Or.inr ⟨last.solution, _, hlast.solution_nonneg, hlast.mulVec_solution,
        hlast.unbounded hunb, rfl⟩))

/-! ## Getting back to the problem -/

namespace Represents

variable {p : Problem ℚ}

theorem tableau_eq (h : c.Represents p form) : c.tableau = form.start := by
  rw [CanonicalForm.tableau, h.matrix_eq, ok_bind, h.values_eq, h.cost_eq]
  rfl

/-- The costs of feasible vectors are images of the costs of feasible canonical vectors. -/
theorem exists_canonical (h : c.Represents p form) (hp : p.WellFormed) :
    ∃ shift,
      (∀ x : Fin n → ℚ, 0 ≤ x → form.matrix *ᵥ x = form.values →
        ∃ y, c.reconstruct (.optimum (List.ofFn x)) = .ok y ∧ y.length = p.variableCount ∧
          p.isFeasible y = .ok true ∧ p.Feasible (valuation y) ∧
          linear p.cost (valuation y) = p.objective.sign * (form.cost ⬝ᵥ x) + shift) ∧
      ∀ z, p.Feasible z → ∃ x : Fin n → ℚ, 0 ≤ x ∧ form.matrix *ᵥ x = form.values ∧
        linear p.cost z = p.objective.sign * (form.cost ⬝ᵥ x) + shift := by
  obtain ⟨shift, hsound⟩ := h.sound
  refine ⟨shift, fun x hx hrows => ?_, fun z hz => ?_⟩
  · obtain ⟨y, hback, hfeasible, hcost⟩ := hsound x hx hrows
    obtain ⟨hlength, hmeaning⟩ := (Problem.isFeasible_iff hp).mp hfeasible
    rw [Problem.objectiveValue_eq hlength, Except.ok.injEq] at hcost
    exact ⟨y, hback, hlength, hfeasible, hmeaning, hcost⟩
  · obtain ⟨y, hfeasible, hvalue⟩ := hz.exists_list hp
    obtain ⟨x, hx, hrows, hback⟩ := h.complete y hfeasible
    obtain ⟨y', hback', -, hcost⟩ := hsound x hx hrows
    have hy : y = y' := Except.ok.inj (hback.symm.trans hback')
    rw [← hy, hvalue, Except.ok.injEq] at hcost
    exact ⟨x, hx, hrows, hcost⟩

theorem answers_optimum (h : c.Represents p form) (hp : p.WellFormed) {x : Fin n → ℚ}
    {duals : Fin m → ℚ} (hx : form.Optimal x duals) :
    ∃ y, c.reconstruct (.optimum (List.ofFn x)) = .ok y ∧ p.Answers (.optimum y) := by
  obtain ⟨shift, hback, hcanonical⟩ := h.exists_canonical hp
  obtain ⟨y, hrun, hlength, hfeasible, -, hcost⟩ := hback x hx.nonneg hx.mulVec_eq
  refine ⟨y, hrun, hlength, hfeasible, fun z hz => ?_⟩
  obtain ⟨x', hx', hrows, hcost'⟩ := hcanonical z hz
  rw [hcost, hcost', Objective.better_iff]
  exact not_lt_of_ge (hx.le hx' hrows)

theorem answers_infeasible (h : c.Represents p form) (hp : p.WellFormed) {duals : Fin m → ℚ}
    (hduals : form.Infeasible duals) : p.Answers .infeasible := by
  obtain ⟨_, -, hcanonical⟩ := h.exists_canonical hp
  intro z hz
  obtain ⟨x, hx, hrows, -⟩ := hcanonical z hz
  exact hduals.not_feasible hx hrows

theorem answers_unbounded (h : c.Represents p form) (hp : p.WellFormed) {x direction : Fin n → ℚ}
    (hx : 0 ≤ x) (hrows : form.matrix *ᵥ x = form.values) (hdirection : form.Unbounded direction) :
    p.Answers .unbounded := by
  obtain ⟨shift, hback, -⟩ := h.exists_canonical hp
  constructor
  · obtain ⟨y, -, -, -, hfeasible, -⟩ := hback x hx hrows
    exact ⟨_, hfeasible⟩
  · intro bound
    obtain ⟨bound', hbound⟩ := p.objective.exists_sign_mul_add bound shift
    obtain ⟨x', hx', hrows', hlt⟩ := hdirection.cost_lt hx hrows bound'
    obtain ⟨y, -, -, -, hfeasible, hcost⟩ := hback x' hx' hrows'
    refine ⟨_, hfeasible, ?_⟩
    rw [hcost, ← hbound, Objective.better_iff]
    exact hlt

end Represents

end CanonicalForm

/-! ## The whole method -/

namespace Problem

variable {configuration : Configuration}

/-- With the supported options, what is left is to find the canonical form, to solve it and to go
back. -/
theorem twoPhase_outcome {F : Type} [Scalar F] {p : Problem F}
    (hmethod : configuration.method = .primalSimplex) (hpresolve : configuration.presolve = false)
    (fuel : ℕ) :
    (twoPhase fuel p configuration).outcome =
      p.canonicalForm.outcome >>= fun c =>
        (c.solve configuration.verbosity fuel).outcome >>=
          Outcome.mapM fun x => c.reconstruct (.optimum x) := by
  unfold twoPhase
  rw [if_neg (not_not_intro hmethod), hpresolve]
  simp only [Bool.false_eq_true, if_false, Logged.outcome_bind]
  refine congrArg _ (funext fun c => congrArg _ (funext fun outcome => ?_))
  cases outcome with
  | optimum x =>
    split
    · simp only [Logged.outcome_bind, Logged.outcome_report, Logged.outcome_liftM, ok_bind]
      rfl
    · simp only [Logged.outcome_bind, Logged.outcome_liftM]
      rfl
  | infeasible => split <;> rfl
  | unbounded => split <;> rfl
  | infeasibleOrUnbounded => split <;> rfl
  | error => split <;> rfl

variable {p : Problem ℚ}

/-- On a well-formed problem that was not transformed the method is still pivoting when the fuel is
spent, or it ends with an answer. -/
theorem WellFormed.twoPhase_cases (hwf : p.WellFormed) (hfresh : p.transformed = false)
    (hmethod : configuration.method = .primalSimplex) (hpresolve : configuration.presolve = false)
    (fuel : ℕ) :
    ((twoPhase fuel p configuration).outcome = .error .outOfFuel ∧
        ∃ c, p.canonicalForm.outcome = .ok c ∧ c.KeepsPivoting configuration.verbosity fuel) ∨
      ∃ outcome, (twoPhase fuel p configuration).outcome = .ok outcome ∧ p.Answers outcome := by
  obtain ⟨c, hrun, hcanonical⟩ := canonicalForm_spec hwf hfresh
  have hform := hcanonical.represents hwf
  have houtcome := twoPhase_outcome (p := p) hmethod hpresolve fuel
  rw [hrun, ok_bind] at houtcome
  rw [houtcome]
  rcases c.solve_cases hform.tableau_eq configuration.verbosity fuel with
    ⟨hfuel, hkeeps⟩ | ⟨duals, hduals, hend⟩ | ⟨x, duals, hx, hend⟩ |
    ⟨x, direction, hx, hrows, hdirection, hend⟩
  · rw [hfuel]
    exact Or.inl ⟨rfl, c, hrun, hkeeps⟩
  · rw [hend]
    exact Or.inr ⟨.infeasible, rfl, hform.answers_infeasible hwf hduals⟩
  · obtain ⟨y, hback, hanswers⟩ := hform.answers_optimum hwf hx
    refine Or.inr ⟨.optimum y, ?_, hanswers⟩
    rw [hend, ok_bind, Outcome.mapM, hback]
    rfl
  · rw [hend]
    exact Or.inr ⟨.unbounded, rfl, hform.answers_unbounded hwf hx hrows hdirection⟩

/-- The method answers every problem that was not transformed, unless it is still pivoting when the
fuel is spent.  Nothing else can happen. -/
theorem twoPhase_answers (hp : p.Reachable) (hfresh : p.transformed = false)
    (hmethod : configuration.method = .primalSimplex) (hpresolve : configuration.presolve = false)
    (fuel : ℕ) :
    ((twoPhase fuel p configuration).outcome = .error .outOfFuel ∧
        ∃ c, p.canonicalForm.outcome = .ok c ∧ c.KeepsPivoting configuration.verbosity fuel) ∨
      ∃ outcome, (twoPhase fuel p configuration).outcome = .ok outcome ∧ p.Answers outcome :=
  hp.wellFormed.twoPhase_cases hfresh hmethod hpresolve fuel

theorem twoPhase_answers_mixed :
    Mixed.coupled.Reachable ∧
      (((twoPhase 10 Mixed.coupled {}).outcome = .error .outOfFuel ∧
          ∃ c, Mixed.coupled.canonicalForm.outcome = .ok c ∧ c.KeepsPivoting .off 10) ∨
        ∃ outcome, (twoPhase 10 Mixed.coupled {}).outcome = .ok outcome ∧
          Mixed.coupled.Answers outcome) :=
  ⟨Mixed.reachable_coupled, twoPhase_answers Mixed.reachable_coupled rfl rfl rfl 10⟩

/-- A variable that is only bounded from above, and no constraints. -/
example : (twoPhase 2
    (⟨.maximize, true, [1], [⟨none, some 3⟩], [], [], ∅, false⟩ : Problem ℚ) {}).outcome =
      .ok (.optimum [3]) := by
  decide +kernel

end Problem

end LinearOpt

import LinearOpt.Proofs.Simplex.Failures
import LinearOpt.Proofs.Simplex.Exchanges
import LinearOpt.Proofs.Simplex.Progress

/-!
# Phase one is bounded

The column is chosen by the dual values and the row by the values of the transformed column.  In
phase one the two are tied together by the basis: a column that lowers the sum of the artificial
variables has a positive coefficient in a row of one (`exists_coefficient_pos`), so there is a row
whenever there is a column.  No feasibility is needed for that.

* `exists_row_of_selectColumn` says so of the tableau of a basis, and `not_ends_unbounded` of the
  end of a run.
* `phaseOne_ne_failed` and `CanonicalForm.solve_decided` carry it to the phase and to both phases,
  on any canonical form: what passes the checks of the first tableau is in standard form.
* `phaseOne_is_bounded` is the result, up to the method as it is called.
-/

namespace LinearOpt

/-- The outcomes that exact arithmetic leaves. -/
def Outcome.Decided {α : Type} (outcome : Outcome α) : Prop :=
  (∃ solution, outcome = .optimum solution) ∨ outcome = .infeasible ∨ outcome = .unbounded

theorem Outcome.Decided.ne_error {α : Type} {outcome : Outcome α} (h : outcome.Decided) :
    outcome ≠ .error := by
  rcases h with ⟨_, rfl⟩ | rfl | rfl <;> nofun

/-- What an optimum comes with may be replaced. -/
theorem Outcome.Decided.of_mapM {α β : Type} {f : α → Except Failure β} {outcome : Outcome α}
    {image : Outcome β} (h : outcome.Decided) (himage : outcome.mapM f = .ok image) :
    image.Decided := by
  rcases h with ⟨solution, rfl⟩ | rfl | rfl
  · obtain ⟨solution', -, heq⟩ := bind_eq_ok.mp himage
    cases heq
    exact Or.inl ⟨solution', rfl⟩
  · cases himage
    exact Or.inr (Or.inl rfl)
  · cases himage
    exact Or.inr (Or.inr rfl)

namespace StandardForm

variable {m n : ℕ} {p : StandardForm m n}

/-! ## A row for every column -/

/-- If a column is selected, then the ratio test finds a row for it. -/
def FindsRow (t : Tableau ℚ) : Prop :=
  ∀ j cost, t.selectColumn = .ok (some (j, cost)) →
    ∃ column r, t.generateColumn j = .ok column ∧ t.selectRow column = .ok (some r)

theorem exists_row_of_selectColumn (B : p.Basis) : FindsRow (tableau .one B) := by
  intro j cost hselect
  rcases selectColumn_cases .one B with ⟨hnone, -⟩ | ⟨k, hk, -, hcost, hsome⟩
  · rw [hnone] at hselect
    cases hselect
  · rw [hsome] at hselect
    cases hselect
    obtain ⟨i, hi⟩ := exists_coefficient_pos B hk hcost
    have hcolumn := generateColumn_eq .one B (show j < n + m by omega)
    have hrows : (tableau .one B).rows = List.ofFn (basisRow .one B) := rfl
    rcases selectRow_cases hrows (B.coefficients j) with ⟨-, hnonpos⟩ | ⟨r, hrow, -⟩
    · exact absurd hi (not_lt_of_ge (hnonpos i))
    · exact ⟨_, r, hcolumn, hrow⟩

/-- A tableau for which every column has a row is not one where a phase ends unbounded. -/
theorem FindsRow.not_ends_unbounded {t : Tableau ℚ} (h : FindsRow t) : ¬ t.Ends .unbounded := by
  rintro (_ | hstep)
  unfold Tableau.nextStep at hstep
  obtain ⟨chosen, hselect, hstep⟩ := bind_eq_ok.mp hstep
  cases chosen with
  | none => cases hstep
  | some chosen =>
    obtain ⟨k, reduced⟩ := chosen
    obtain ⟨column, r, hcolumn, hrow⟩ := h k reduced hselect
    dsimp only at hstep
    rw [hcolumn, ok_bind, hrow] at hstep
    cases hstep

/-! ## The phase -/

/-- No run from the tableau of a basis, feasible or not, ends unbounded in phase one. -/
theorem not_ends_unbounded {B : p.Basis} {last : Tableau ℚ} {es : List (ℕ × ℕ)}
    (h : Tableau.Iterations (tableau .one B) es last) : ¬ last.Ends .unbounded := by
  obtain ⟨B', rfl, -⟩ := exists_steps h rfl
  exact (exists_row_of_selectColumn B').not_ends_unbounded

theorem phaseOne_ne_failed (B : p.Basis) (verbosity : Verbosity) (fuel : ℕ) (last : Tableau ℚ) :
    ((tableau .one B).phaseOne verbosity fuel).outcome ≠ .ok (.failed, last) := by
  intro h
  rcases Tableau.phaseOne_outcome_cases h with
    ⟨-, hrun⟩ | ⟨hfeasibility, -⟩ | ⟨_, _, hfeasibility, -⟩
  · obtain ⟨es, hone, hend⟩ := Tableau.exists_iterations hrun
    exact not_ends_unbounded hone hend
  · cases hfeasibility
  · cases hfeasibility

end StandardForm

/-! ## Both phases -/

theorem CanonicalForm.Makes.decided {c : CanonicalForm ℚ} {es : List (ℕ × ℕ)}
    {outcome : Outcome (List ℚ)} (h : c.Makes es outcome) : outcome.Decided := by
  cases h with
  | failed hone =>
    obtain ⟨hfirst, hone, hend⟩ := hone
    obtain ⟨matrix, -, hstart⟩ := bind_eq_ok.mp hfirst
    obtain ⟨form, hform⟩ := StandardForm.exists_form_of_start hstart
    rw [StandardForm.start_eq, Except.ok.injEq] at hform
    subst hform
    exact absurd hend (StandardForm.not_ends_unbounded hone)
  | infeasible _ _ => exact Or.inr (Or.inl rfl)
  | optimum _ _ _ => exact Or.inl ⟨_, rfl⟩
  | unbounded _ _ _ => exact Or.inr (Or.inr rfl)

theorem CanonicalForm.solve_decided {c : CanonicalForm ℚ} {verbosity : Verbosity} {fuel : ℕ}
    {outcome : Outcome (List ℚ)} (h : (c.solve verbosity fuel).outcome = .ok outcome) :
    outcome.Decided := by
  obtain ⟨es, hes⟩ := exists_makes h
  exact hes.decided

theorem Problem.decided_of_outcome {p : Problem ℚ} {configuration : Configuration} {fuel : ℕ}
    {outcome : Outcome (List ℚ)} (h : (twoPhase fuel p configuration).outcome = .ok outcome) :
    outcome.Decided := by
  obtain ⟨hmethod, hpresolve⟩ := supported_of_outcome fuel h
  obtain ⟨es, ⟨-, hmakes, hback⟩⟩ := exists_makes hmethod hpresolve h
  exact hmakes.decided.of_mapM hback

/-- The method ends every problem that was not transformed with such an outcome, unless it is still
pivoting when the fuel is spent. -/
theorem Problem.Reachable.twoPhase_decided {p : Problem ℚ} (hp : p.Reachable)
    (hfresh : p.transformed = false) {configuration : Configuration}
    (hmethod : configuration.method = .primalSimplex) (hpresolve : configuration.presolve = false)
    (fuel : ℕ) :
    (twoPhase fuel p configuration).outcome = .error .outOfFuel ∨
      ∃ outcome, (twoPhase fuel p configuration).outcome = .ok outcome ∧ outcome.Decided := by
  rcases hp.wellFormed.twoPhase_cases hfresh hmethod hpresolve fuel with
    ⟨hfuel, -⟩ | ⟨outcome, houtcome, -⟩
  · exact Or.inl hfuel
  · exact Or.inr ⟨outcome, houtcome, decided_of_outcome houtcome⟩

/-- Phase one is never unbounded.  In every state that pivots can reach in phase one, feasible or
not, a selected column has a row, and the phase does not fail from there.  Hence solving a canonical
form is never an error, and the method returns an optimum, infeasible or unbounded: nothing else on
any problem, and one of them on a problem that can be built unless it runs out of fuel. -/
theorem phaseOne_is_bounded :
    (∀ (m n : ℕ) (p : StandardForm m n) (t : Tableau ℚ), p.Reached t → t.phase = .one →
      StandardForm.FindsRow t ∧
      ∀ verbosity fuel last, (t.phaseOne verbosity fuel).outcome ≠ .ok (.failed, last)) ∧
    (∀ (c : CanonicalForm ℚ) verbosity fuel, (c.solve verbosity fuel).outcome ≠ .ok .error) ∧
    ∀ (p : Problem ℚ) configuration fuel,
      (∀ outcome, (twoPhase fuel p configuration).outcome = .ok outcome → outcome.Decided) ∧
      (p.Reachable → p.transformed = false → configuration.method = .primalSimplex →
        configuration.presolve = false →
        (twoPhase fuel p configuration).outcome = .error .outOfFuel ∨
          ∃ outcome, (twoPhase fuel p configuration).outcome = .ok outcome ∧ outcome.Decided) := by
  refine ⟨fun m n p t ht hphase => ?_, fun c verbosity fuel h => ?_, fun p configuration fuel =>
    ⟨fun outcome => Problem.decided_of_outcome, fun hp hfresh hmethod hpresolve =>
      hp.twoPhase_decided hfresh hmethod hpresolve fuel⟩⟩
  · obtain ⟨phase, B, rfl⟩ := ht.exists_basis
    rw [StandardForm.tableau_phase] at hphase
    subst hphase
    exact ⟨StandardForm.exists_row_of_selectColumn B, StandardForm.phaseOne_ne_failed B⟩
  · exact (CanonicalForm.solve_decided h).ne_error rfl

/-- A state of phase one that is not feasible, and where column 0 is selected: column 1 entered in
row 0, where the ratio test would choose row 1. -/
def StandardForm.Crossed.skewed : Tableau ℚ :=
  { first with
    rows := [⟨1, 0, [1 / 2, 0], 5 / 2⟩, ⟨3, 1, [-2, 1], -4⟩]
    basic := [false, true, false, true] }

theorem phaseOne_is_bounded_skewed :
    StandardForm.Crossed.form.Reached StandardForm.Crossed.skewed ∧
      StandardForm.Crossed.skewed.selectColumn = .ok (some (0, -1)) ∧
      (∃ column r, StandardForm.Crossed.skewed.generateColumn 0 = .ok column ∧
        StandardForm.Crossed.skewed.selectRow column = .ok (some r)) ∧
      Outcome.Decided (.optimum [(3 : ℚ)]) ∧
      ((twoPhase 10 Problem.Mixed.coupled {}).outcome = .error .outOfFuel ∨
        ∃ outcome, (twoPhase 10 Problem.Mixed.coupled {}).outcome = .ok outcome ∧
          outcome.Decided) := by
  have hfirst : StandardForm.Crossed.form.Reached StandardForm.Crossed.first :=
    .start (by decide +kernel)
  have hcolumn : StandardForm.Crossed.first.generateColumn 1 = .ok [2, 4] := by decide +kernel
  have hskewed : StandardForm.Crossed.form.Reached StandardForm.Crossed.skewed :=
    .pivot (r := 0) (x := 2) hfirst (by decide +kernel) hcolumn rfl (by decide)
      (by decide +kernel)
  have hselect : StandardForm.Crossed.skewed.selectColumn = .ok (some (0, -1)) := by
    decide +kernel
  have hsolved : (twoPhase 2
      (⟨.maximize, true, [1], [⟨none, some 3⟩], [], [], ∅, false⟩ : Problem ℚ) {}).outcome =
        .ok (.optimum [3]) := by
    decide +kernel
  exact ⟨hskewed, hselect, (phaseOne_is_bounded.1 _ _ _ _ hskewed rfl).1 0 (-1) hselect,
    (phaseOne_is_bounded.2.2 _ _ _).1 _ hsolved,
    (phaseOne_is_bounded.2.2 _ _ _).2 Problem.Mixed.reachable_coupled rfl rfl rfl⟩

end LinearOpt

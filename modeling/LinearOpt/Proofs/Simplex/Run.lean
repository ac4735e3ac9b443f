import LinearOpt.Proofs.Simplex.Choice
import LinearOpt.Simplex.Iterate
import Mathlib.Logic.Relation

/-!
# Runs of the simplex method

A run is a sequence of exchanges.  `Step` is one iteration: a column that lowers the cost enters in
the row that the ratio test chooses.  A step keeps the basic solution feasible (`Step.feasible`),
hence no check of the loop fails, and `iterate_cases` lists the ways in which the loop can end:

* it runs out of fuel, having made as many pivots;
* it ends at a basis that `IsOptimal`;
* it ends at a basis with a column that `IsUnbounded`.

`Step.induct` carries any property that a step keeps along a run.
-/

namespace LinearOpt

namespace Tableau

/-- The method makes at least this many pivots. -/
def MakesPivots : ℕ → Tableau ℚ → Prop
  | 0, _ => True
  | k + 1, t => ∃ j cost r column next, t.nextStep = .ok (.pivot j cost r column) ∧
      t.pivot j r column = .ok next ∧ next.MakesPivots k

end Tableau

namespace StandardForm

variable {m n : ℕ} {p : StandardForm m n}

/-! ## Feasible bases -/

namespace Basis

/-- No basic variable is negative. -/
def Feasible (B : p.Basis) : Prop := ∀ i, 0 ≤ B.values i

theorem artificial_feasible : (artificial p).Feasible := by
  intro i
  rw [artificial_values]
  exact p.values_nonneg i

end Basis

/-- As many columns are marked as there are rows. -/
theorem count_basic (phase : Phase) (B : p.Basis) : (tableau phase B).basic.count true = m := by
  have hperm : ((List.range (n + m)).filter B.has).Perm (List.ofFn B.columns) := by
    rw [List.perm_ext_iff_of_nodup (List.nodup_range.filter _)
      (List.nodup_ofFn.mpr B.columns_injective)]
    intro k
    rw [List.mem_filter, List.mem_range, B.has_iff, List.mem_ofFn]
    constructor
    · exact fun h => h.2
    · rintro ⟨i, rfl⟩
      exact ⟨B.columns_lt i, i, rfl⟩
  have hbasic : (tableau phase B).basic = (List.range (n + m)).map B.has := by
    rw [range_eq_ofFn, List.map_ofFn]
    rfl
  rw [hbasic, List.count, List.countP_map, List.countP_eq_length_filter]
  have hpred : ((fun b => b == true) ∘ B.has) = B.has := by
    funext k
    simp
  rw [hpred, hperm.length_eq, List.length_ofFn]

theorem isFeasibleBasis_eq {phase : Phase} {B : p.Basis} (hB : B.Feasible) :
    (tableau phase B).isFeasibleBasis = true := by
  have hvalues : ((tableau phase B).rows.all fun row => !Scalar.lt row.value Scalar.zero) =
      true := by
    rw [List.all_eq_true]
    intro row hrow
    obtain ⟨i, rfl⟩ := List.mem_ofFn.mp hrow
    simpa [basisRow] using hB i
  have hmarks : ((tableau phase B).rows.all fun row =>
      (tableau phase B).basic.getD row.column false) = true := by
    rw [List.all_eq_true]
    intro row hrow
    obtain ⟨i, rfl⟩ := List.mem_ofFn.mp hrow
    rw [basic_getD]
    exact B.has_iff.mpr ⟨i, rfl⟩
  rw [Tableau.isFeasibleBasis, hvalues, count_basic, tableau_rowCount, hmarks]
  simp

/-! ## Steps -/

/-- One iteration: a column that is not basic and lowers the cost enters in the row that the ratio
test chooses. -/
inductive Step (phase : Phase) (B : p.Basis) : p.Basis → Prop where
  | exchange {j : ℕ} {r : Fin m} (hj : j < n) (hbasic : B.has j = false)
      (hcost : B.reducedCost phase j < 0) (hr : IsFirstMinimum B.values (B.coefficients j) r) :
      Step phase B (B.exchange j r hr.pos.ne')

/-- The chosen row has the least ratio, so the values that fall do not fall below zero. -/
theorem Step.feasible {phase : Phase} {B next : p.Basis} (h : Step phase B next)
    (hB : B.Feasible) : next.Feasible := by
  obtain ⟨hj, hbasic, hcost, hr⟩ := h
  intro i
  rw [Basis.exchange_values]
  exact (nonneg_exchange_iff hB hr.pos).mpr hr.le i

/-- What every step keeps, a run keeps. -/
theorem Step.induct {phase : Phase} {P : p.Basis → Prop} {B last : p.Basis}
    (hrun : Relation.ReflTransGen (Step phase) B last) (hB : P B)
    (hstep : ∀ B next, Step phase B next → P B → P next) : P last := by
  induction hrun with
  | refl => exact hB
  | tail _ h ih => exact hstep _ _ h ih

/-! ## The end of a run -/

/-- No column lowers the cost. -/
structure IsOptimal (phase : Phase) (B : p.Basis) : Prop where
  nextStep : (tableau phase B).nextStep = .ok .optimal
  reducedCost_nonneg : ∀ j < n, 0 ≤ B.reducedCost phase j

/-- Column `j` lowers the cost, and no row keeps it from growing. -/
structure IsUnbounded (phase : Phase) (B : p.Basis) (j : ℕ) : Prop where
  nextStep : (tableau phase B).nextStep = .ok (.unbounded j (B.reducedCost phase j))
  lt : j < n
  not_basic : B.has j = false
  reducedCost_neg : B.reducedCost phase j < 0
  coefficients_nonpos : ∀ i, B.coefficients j i ≤ 0

/-- The test looks only at columns that are not basic.  Basic columns cost nothing. -/
theorem isOptimal_of_nextStep {phase : Phase} {B : p.Basis}
    (hnext : (tableau phase B).nextStep = .ok .optimal)
    (h : ∀ j < n, B.has j = false → 0 ≤ B.reducedCost phase j) : IsOptimal phase B where
  nextStep := hnext
  reducedCost_nonneg j hj := by
    cases hbasic : B.has j with
    | false => exact h j hj hbasic
    | true =>
      obtain ⟨i, rfl⟩ := B.has_iff.mp hbasic
      rw [B.reducedCost_columns]

/-- An iteration ends the run or is a step. -/
theorem step_cases (phase : Phase) (B : p.Basis) :
    IsOptimal phase B ∨ (∃ j, IsUnbounded phase B j) ∨
      ∃ j, ∃ r : Fin m, ∃ next, Step phase B next ∧
        (tableau phase B).nextStep = .ok (.pivot j (B.reducedCost phase j) r
          (List.ofFn (B.coefficients j))) ∧
        (tableau phase B).pivot j r (List.ofFn (B.coefficients j)) = .ok (tableau phase next) := by
  rcases nextStep_cases phase B with ⟨hnext, h⟩ | ⟨j, hj, hbasic, hcost, h⟩
  · exact Or.inl (isOptimal_of_nextStep hnext h)
  · rcases h with ⟨hnext, hd⟩ | ⟨r, hr, hnext⟩
    · exact Or.inr (Or.inl ⟨j, hnext, hj, hbasic, hcost, hd⟩)
    · refine Or.inr (Or.inr ⟨j, r, _, .exchange hj hbasic hcost hr, hnext, ?_⟩)
      exact pivot_eq phase hr.pos.ne' (by omega) hbasic

/-! ## The loop -/

theorem outcome_detail (verbosity : Verbosity) {event : Logged ℚ (Event ℚ)} {e : Event ℚ}
    (h : event.outcome = .ok e) : (Tableau.detail verbosity event).outcome = .ok () := by
  rw [Tableau.detail]
  split
  · simp [h]
  · rfl

theorem outcome_reportEnd (verbosity : Verbosity) (phase : Phase) (B : p.Basis)
    (termination : Termination) (pivots : ℕ) :
    (Tableau.reportEnd verbosity (tableau phase B) termination pivots).outcome = .ok () := by
  refine outcome_detail verbosity (e := .phaseEnded phase termination pivots (B.objective phase)) ?_
  rw [objectiveValue_eq]
  rfl

/-- The ways in which the loop can end.  No check of it fails. -/
theorem iterate_cases (verbosity : Verbosity) (phase : Phase) (fuel pivots : ℕ) {B : p.Basis}
    (hB : B.Feasible) :
    ((tableau phase B).iterate verbosity fuel pivots).outcome = .error .outOfFuel ∧
        (tableau phase B).MakesPivots fuel ∨
      ∃ last : p.Basis, Relation.ReflTransGen (Step phase) B last ∧ last.Feasible ∧
        (((tableau phase B).iterate verbosity fuel pivots).outcome =
              .ok (.optimal, tableau phase last) ∧ IsOptimal phase last ∨
          ((tableau phase B).iterate verbosity fuel pivots).outcome =
              .ok (.unbounded, tableau phase last) ∧ ∃ j, IsUnbounded phase last j) := by
  induction fuel generalizing B pivots with
  | zero => exact Or.inl ⟨rfl, trivial⟩
  | succ fuel ih =>
    rw [Tableau.iterate, isFeasibleBasis_eq hB, require_true]
    rcases step_cases phase B with hopt | ⟨j, hunb⟩ | ⟨j, r, next, hstep, hnext, hpivot⟩
    · refine Or.inr ⟨B, .refl, hB, Or.inl ⟨?_, hopt⟩⟩
      rw [hopt.nextStep]
      simp only [Logged.outcome_bind, Logged.outcome_liftM_ok, ok_bind, outcome_reportEnd,
        Logged.outcome_pure]
    · refine Or.inr ⟨B, .refl, hB, Or.inr ⟨?_, j, hunb⟩⟩
      rw [hunb.nextStep]
      simp only [Logged.outcome_bind, Logged.outcome_liftM_ok, ok_bind, outcome_reportEnd,
        Logged.outcome_pure]
    · rw [hnext]
      have hdetail : (Tableau.detail verbosity do
          return .pivot j (B.reducedCost phase j) (← (tableau phase B).basicColumn r) r.val :
          Logged ℚ Unit).outcome = .ok () := by
        refine outcome_detail verbosity
          (e := .pivot j (B.reducedCost phase j) (B.columns r) r.val) ?_
        rw [basicColumn_eq]
        rfl
      simp only [Logged.outcome_bind, Logged.outcome_liftM_ok, ok_bind, hdetail, hpivot]
      rcases ih (pivots + 1) (hstep.feasible hB) with ⟨hfuel, hmakes⟩ | ⟨last, hrun, hlast, hend⟩
      · exact Or.inl ⟨hfuel, j, _, r, _, _, hnext, hpivot, hmakes⟩
      · exact Or.inr ⟨last, .head hstep hrun, hlast, hend⟩

end StandardForm

end LinearOpt

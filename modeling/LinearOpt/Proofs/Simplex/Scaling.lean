import LinearOpt.Proofs.Canonical.Scaling
import LinearOpt.Proofs.Refinement.Solve
import LinearOpt.Proofs.Simplex.Failures

/-!
# Scaling the costs

Two runs, on a tableau and on the same tableau with every cost multiplied by a positive `k`.  Phase
one does not look at the costs.  In phase two the costs in the basis, the dual values and the
relative costs are all multiplied by `k` (`Phase.factor`), so the same column is the first one with
a negative relative cost, and the same row is chosen for it: `nextStep_scaled`.

From there on the runs make the same exchanges and end alike (`CanonicalForm.solve_scaled`).
`twoPhase_scaled` is the result: the method returns the same for a problem, for the problem with
scaled costs, and for the problem in the other direction with negated costs.
-/

namespace LinearOpt

/-- What costs are multiplied by in a phase. -/
def Phase.factor (k : ℚ) : Phase → ℚ
  | .one => 1
  | .two => k

theorem Phase.factor_pos {k : ℚ} (hk : 0 < k) (phase : Phase) : 0 < phase.factor k := by
  cases phase with
  | one => exact one_pos
  | two => exact hk

def BasisRow.scaled (factor : ℚ) (row : BasisRow ℚ) : BasisRow ℚ :=
  { row with cost := factor * row.cost }

/-- The tableau with every cost multiplied by `k`, also those that it holds in the basis. -/
def Tableau.scaled (k : ℚ) (t : Tableau ℚ) : Tableau ℚ :=
  { t with
    cost := t.cost.map (k * ·)
    rows := t.rows.map (BasisRow.scaled (t.phase.factor k)) }

def Tableau.Step.scaled (factor : ℚ) : Tableau.Step ℚ → Tableau.Step ℚ
  | .optimal => .optimal
  | .unbounded column relativeCost => .unbounded column (factor * relativeCost)
  | .pivot column relativeCost row coefficients =>
      .pivot column (factor * relativeCost) row coefficients

namespace Tableau

variable {k : ℚ} (t : Tableau ℚ)

/-! ## What does not depend on the costs -/

@[simp] theorem scaled_rowCount : (t.scaled k).rowCount = t.rowCount := List.length_map _

@[simp] theorem scaled_realColumnCount : (t.scaled k).realColumnCount = t.realColumnCount :=
  List.length_map _

theorem scaled_extendedColumn (j : ℕ) : (t.scaled k).extendedColumn j = t.extendedColumn j := by
  unfold extendedColumn
  rw [scaled_rowCount, scaled_realColumnCount]
  rfl

theorem generateColumn_scaled (j : ℕ) :
    Agrees id (t.generateColumn j) ((t.scaled k).generateColumn j) := by
  unfold generateColumn
  rw [scaled_extendedColumn]
  refine (Agrees.refl _).bind fun column => ?_
  have hrows : Agrees (List.map id) (t.rows.mapM fun row => Scalar.dot row.inverse column)
      ((t.scaled k).rows.mapM fun row => Scalar.dot row.inverse column) :=
    .mapM rfl fun row => .refl _
  rwa [List.map_id_fun] at hrows

theorem generateElement_scaled (i j : ℕ) :
    Agrees id (t.generateElement i j) ((t.scaled k).generateElement i j) := by
  unfold generateElement
  rw [scaled_extendedColumn]
  exact (Agrees.fetch (BasisRow.scaled (t.phase.factor k)) t.rows i).bind fun row => .refl _

theorem basicColumn_scaled (i : ℕ) :
    Agrees id (t.basicColumn i) ((t.scaled k).basicColumn i) :=
  (Agrees.fetch (BasisRow.scaled (t.phase.factor k)) t.rows i).map fun _ => rfl

theorem scaled_artificialRows : (t.scaled k).artificialRows = t.artificialRows := by
  have hrows : (t.scaled k).rows.zipIdx =
      t.rows.zipIdx.map (Prod.map (BasisRow.scaled (t.phase.factor k)) id) := List.zipIdx_map
  unfold artificialRows
  rw [hrows, scaled_realColumnCount, List.filter_map, List.map_map]
  rfl

theorem scaled_basicSolution : (t.scaled k).basicSolution = t.basicSolution := by
  unfold basicSolution
  rw [scaled_realColumnCount]
  refine List.map_congr_left fun j _ => ?_
  have hfind : (t.scaled k).rows.find? (·.column == j) =
      (t.rows.find? (·.column == j)).map (BasisRow.scaled (t.phase.factor k)) := List.find?_map ..
  rw [hfind]
  cases t.rows.find? (·.column == j) <;> rfl

theorem scaled_hasPositiveArtificial :
    (t.scaled k).hasPositiveArtificial = t.hasPositiveArtificial := by
  unfold hasPositiveArtificial
  rw [scaled_realColumnCount]
  exact List.any_map

theorem scaled_isFeasibleBasis : (t.scaled k).isFeasibleBasis = t.isFeasibleBasis := by
  unfold isFeasibleBasis
  rw [scaled_rowCount]
  exact congrArg₂ and (congrArg₂ and List.all_map rfl) List.all_map

theorem selectRow_scaled (coefficients : List ℚ) :
    Agrees id (t.selectRow coefficients) ((t.scaled k).selectRow coefficients) := by
  have hrows : ((t.scaled k).rows.zip coefficients).zipIdx =
      (t.rows.zip coefficients).zipIdx.map
        (Prod.map (Prod.map (BasisRow.scaled (t.phase.factor k)) id) id) := by
    rw [← List.zipIdx_map, ← List.zip_map, List.map_id]
    rfl
  unfold selectRow
  rw [scaled_rowCount]
  refine (Agrees.refl _).bind fun _ => ?_
  refine Agrees.map (f := id) (.foldlM hrows (fun best term => ?_) none) fun best => rfl
  exact .refl (betterRatio best term.2 term.1.1.value term.1.2)

/-! ## Costs -/

theorem start_scaled (matrix : List (List ℚ)) (b cost : List ℚ) :
    Agrees (Tableau.scaled k) (start matrix b cost) (start matrix b (cost.map (k * ·))) := by
  unfold start
  rw [List.length_map]
  refine (Agrees.refl _).bind fun _ => (Agrees.refl _).bind fun _ => ?_
  refine (Agrees.refl _).bind fun _ => .ok ?_
  simp only [Tableau.scaled, List.map_map]
  congr 1
  refine List.map_congr_left fun entry _ => ?_
  simp [BasisRow.scaled, Phase.factor]

theorem scaled_phaseCost (j : ℕ) :
    (t.scaled k).phaseCost j = t.phase.factor k * t.phaseCost j := by
  have hcost : (t.scaled k).cost[j]? = t.cost[j]?.map (k * ·) := List.getElem?_map
  have hphase : (t.scaled k).phase = t.phase := rfl
  unfold phaseCost
  rw [hcost, hphase]
  cases t.phase <;> cases t.cost[j]? <;> simp [Phase.factor]

theorem sumProducts_scaled (factor : ℚ) (terms : List (ℚ × ℚ)) :
    (Scalar.sumProducts terms).map (factor * ·) =
      Scalar.sumProducts (terms.map (Prod.map (factor * ·) id)) := by
  rw [Exact.sumProducts_eq, Exact.sumProducts_eq, List.map_map]
  refine congrArg Except.ok ((List.sum_map_mul_left ..).symm.trans ?_)
  exact congrArg List.sum (List.map_congr_left fun term _ => (mul_assoc _ _ _).symm)

theorem dot_scaled (factor : ℚ) (left right : List ℚ) :
    (Scalar.dot left right).map (factor * ·) = Scalar.dot (left.map (factor * ·)) right := by
  have hzip : (left.map (factor * ·)).zip right =
      (left.zip right).map (Prod.map (factor * ·) id) := by
    conv_lhs => rw [← List.map_id right]
    exact List.zip_map
  unfold Scalar.dot
  rw [List.length_map, hzip]
  exact map_bind_same fun _ => sumProducts_scaled factor _

theorem dualValues_scaled :
    Agrees (List.map (t.phase.factor k * ·)) t.dualValues (t.scaled k).dualValues := by
  unfold dualValues
  rw [scaled_rowCount]
  refine Agrees.mapM (List.map_id _).symm fun i => ?_
  refine Agrees.bind (f := List.map (Prod.map (t.phase.factor k * ·) id))
    (.mapM rfl fun row => (Agrees.refl _).map fun x => rfl) fun terms => ?_
  exact .of_map (sumProducts_scaled _ terms)

theorem relativeCost_scaled (j : ℕ) (duals : List ℚ) :
    Agrees (t.phase.factor k * ·) (t.relativeCost j duals)
      ((t.scaled k).relativeCost j (duals.map (t.phase.factor k * ·))) := by
  unfold relativeCost
  rw [scaled_extendedColumn]
  refine (Agrees.refl _).bind fun column => ?_
  refine Agrees.bind (.of_map (dot_scaled (t.phase.factor k) duals column)) fun priced => ?_
  rw [scaled_phaseCost]
  exact .ok (mul_sub _ _ _)

theorem objectiveValue_scaled :
    Agrees (t.phase.factor k * ·) t.objectiveValue (t.scaled k).objectiveValue := by
  have hcosts : (t.scaled k).rows.map (·.cost) =
      (t.rows.map (·.cost)).map (t.phase.factor k * ·) := by
    simp [Tableau.scaled, BasisRow.scaled, Function.comp_def]
  have hvalues : (t.scaled k).rows.map (·.value) = t.rows.map (·.value) := by
    simp [Tableau.scaled, BasisRow.scaled, Function.comp_def]
  unfold objectiveValue
  rw [hcosts, hvalues]
  exact .of_map (dot_scaled _ _ _)

/-! ## The next step -/

/-- A positive factor does not change which costs are negative. -/
theorem firstNegative_scaled (hk : 0 < k) (duals : List ℚ) (js : List ℕ) :
    Agrees (Option.map (Prod.map id (t.phase.factor k * ·))) (t.firstNegative duals js)
      ((t.scaled k).firstNegative (duals.map (t.phase.factor k * ·)) js) := by
  induction js with
  | nil => exact .ok rfl
  | cons j js ih =>
    refine (Agrees.refl (t.isBasic j)).bind fun isBasic => ?_
    dsimp only [id]
    split
    · exact ih
    · refine (relativeCost_scaled t j duals).bind fun cost => ?_
      have hsign : Scalar.lt (t.phase.factor k * cost) Scalar.zero = Scalar.lt cost Scalar.zero :=
        decide_eq_decide.mpr (smul_neg_iff_of_pos_left (t.phase.factor_pos hk))
      rw [hsign]
      split
      · exact .ok rfl
      · exact ih

theorem selectColumn_scaled (hk : 0 < k) :
    Agrees (Option.map (Prod.map id (t.phase.factor k * ·))) t.selectColumn
      (t.scaled k).selectColumn := by
  unfold selectColumn
  rw [scaled_realColumnCount]
  exact (dualValues_scaled t).bind fun duals => firstNegative_scaled t hk duals _

theorem nextStep_scaled (hk : 0 < k) :
    Agrees (Step.scaled (t.phase.factor k)) t.nextStep (t.scaled k).nextStep := by
  unfold nextStep
  refine (selectColumn_scaled t hk).bind fun column => ?_
  rcases column with _ | ⟨j, cost⟩
  · exact .ok rfl
  · refine (generateColumn_scaled t j).bind fun coefficients => ?_
    refine (selectRow_scaled t coefficients).bind fun row => ?_
    cases row with
    | none => exact .ok rfl
    | some r => exact .ok rfl

/-! ## The exchange -/

theorem dividedBy_scaled (factor : ℚ) (row : BasisRow ℚ) (divisor : ℚ) :
    Agrees (BasisRow.scaled factor) (row.dividedBy divisor)
      ((row.scaled factor).dividedBy divisor) :=
  (Agrees.refl _).bind fun _ => (Agrees.refl _).map fun _ => rfl

theorem minus_scaled (factor x : ℚ) (row other : BasisRow ℚ) :
    Agrees (BasisRow.scaled factor) (row.minus x other)
      ((row.scaled factor).minus x (other.scaled factor)) :=
  (Agrees.refl _).bind fun _ => (Agrees.refl _).bind fun _ => (Agrees.refl _).map fun _ => rfl

theorem pivot_scaled (j r : ℕ) (coefficients : List ℚ) :
    Agrees (Tableau.scaled k) (t.pivot j r coefficients)
      ((t.scaled k).pivot j r coefficients) := by
  unfold pivot
  refine (Agrees.refl _).bind fun _ => (Agrees.refl (t.isBasic j)).bind fun isBasic => ?_
  refine (Agrees.refl _).bind fun _ => (Agrees.refl (fetch coefficients r)).bind fun divisor => ?_
  refine (Agrees.refl _).bind fun _ => ?_
  refine (Agrees.fetch (BasisRow.scaled (t.phase.factor k)) t.rows r).bind fun leaving => ?_
  refine (dividedBy_scaled _ leaving divisor).bind fun divided => ?_
  have hentering : BasisRow.scaled (t.phase.factor k)
        { divided with column := j, cost := t.phaseCost j } =
      { divided.scaled (t.phase.factor k) with column := j, cost := (t.scaled k).phaseCost j } := by
    rw [scaled_phaseCost]
    rfl
  dsimp only
  rw [← hentering, scaled_rowCount]
  refine Agrees.bind (f := List.map (BasisRow.scaled (t.phase.factor k)))
    (.mapM List.zipIdx_map fun term => ?_) fun rows => ?_
  · dsimp only [Prod.map, id]
    split
    · exact .ok rfl
    · cases coefficients[term.2]? with
      | none => exact .ok rfl
      | some factor =>
        dsimp only
        split
        · exact .ok rfl
        · exact minus_scaled _ factor term.1 _
  · split
    · exact (Agrees.refl (update t.basic leaving.column fun _ => .ok false)).map fun basic => rfl
    · exact .error _

theorem startPhaseTwo_scaled :
    Agrees (Tableau.scaled k) t.startPhaseTwo (t.scaled k).startPhaseTwo := by
  unfold startPhaseTwo
  refine (Agrees.refl _).bind fun _ => .ok ?_
  have hcost : ∀ j, phaseCost { t.scaled k with phase := .two } j =
      k * phaseCost { t with phase := .two } j := by
    intro j
    have hlater := scaled_phaseCost (k := k) { t with phase := .two } j
    exact hlater
  simp only [Tableau.scaled, List.map_map]
  congr 1
  refine List.map_congr_left fun row _ => ?_
  exact congrArg (BasisRow.mk row.column · row.inverse row.value) (hcost row.column).symm

/-! ## Pivoting -/

theorem iterate_scaled (hk : 0 < k) (verbosity : Verbosity) (fuel pivots : ℕ) (t : Tableau ℚ) :
    Agrees (Prod.map id (Tableau.scaled k)) (t.iterate verbosity fuel pivots).outcome
      ((t.scaled k).iterate verbosity fuel pivots).outcome := by
  induction fuel generalizing pivots t with
  | zero => exact .error _
  | succ fuel ih =>
    have hend : ∀ termination, Agrees id (reportEnd verbosity t termination pivots).outcome
        (reportEnd verbosity (t.scaled k) termination pivots).outcome := fun termination =>
      detail_agrees (objectiveValue_scaled t) verbosity _ _
    unfold iterate
    refine .logged_bind (.logged_lift (.require (scaled_isFeasibleBasis t))) fun _ => ?_
    refine .logged_bind (.logged_lift (nextStep_scaled t hk)) fun step => ?_
    cases step with
    | optimal => exact .logged_bind (hend _) fun _ => .ok rfl
    | unbounded j cost => exact .logged_bind (hend _) fun _ => .ok rfl
    | pivot j cost r column =>
      refine .logged_bind (detail_agrees (basicColumn_scaled t r) verbosity _ _) fun _ => ?_
      refine .logged_bind (.logged_lift (pivot_scaled t j r column)) fun next => ?_
      exact ih (pivots + 1) next

theorem firstNonzero_scaled (r : ℕ) (js : List ℕ) :
    Agrees id (t.firstNonzero r js) ((t.scaled k).firstNonzero r js) := by
  induction js with
  | nil => exact .ok rfl
  | cons j js ih =>
    refine (Agrees.refl (t.isBasic j)).bind fun isBasic => ?_
    dsimp only [id]
    split
    · exact ih
    · refine (generateElement_scaled t r j).bind fun x => ?_
      dsimp only [id]
      split
      · exact .ok rfl
      · exact ih

theorem driveOut_scaled (rs : List ℕ) (t : Tableau ℚ) :
    Agrees (Prod.map (Tableau.scaled k) id) (t.driveOut rs) ((t.scaled k).driveOut rs) := by
  induction rs generalizing t with
  | nil => exact .ok rfl
  | cons r rs ih =>
    unfold driveOut
    rw [scaled_realColumnCount]
    refine (firstNonzero_scaled t r _).bind fun found => ?_
    cases found with
    | some j =>
      refine (generateColumn_scaled t j).bind fun column => ?_
      exact (pivot_scaled t j r column).bind fun next => ih next
    | none => exact (ih t).map fun rest => rfl

/-! ## The phases -/

theorem phaseOne_scaled (hk : 0 < k) (verbosity : Verbosity) (fuel : ℕ) :
    Agrees (Prod.map id (Tableau.scaled k)) (t.phaseOne verbosity fuel).outcome
      ((t.scaled k).phaseOne verbosity fuel).outcome := by
  unfold phaseOne
  refine .logged_bind (iterate_scaled hk verbosity fuel 0 t) fun run => ?_
  rcases run with ⟨_ | _, last⟩
  · dsimp only [Prod.map, id]
    rw [scaled_hasPositiveArtificial, scaled_artificialRows]
    split
    · exact .ok rfl
    · refine .logged_bind (.logged_lift (driveOut_scaled _ last)) fun driven => ?_
      exact .logged_bind (.logged_lift (.require rfl)) fun _ => .ok rfl
  · exact .ok rfl

theorem phaseTwo_scaled (hk : 0 < k) (verbosity : Verbosity) (fuel : ℕ) :
    Agrees (Prod.map id (Tableau.scaled k)) (t.phaseTwo verbosity fuel).outcome
      ((t.scaled k).phaseTwo verbosity fuel).outcome := by
  unfold phaseTwo
  refine .logged_bind (iterate_scaled hk verbosity fuel 0 t) fun run => ?_
  rcases run with ⟨_ | _, last⟩
  · dsimp only [Prod.map, id]
    rw [scaled_basicSolution]
    exact .ok rfl
  · exact .ok rfl

end Tableau

/-! ## Both phases -/

namespace CanonicalForm

variable {k : ℚ} (c : CanonicalForm ℚ)

theorem scaled_matrix : (c.scaled k).matrix = c.matrix := by
  unfold matrix scaled
  rw [Problem.scaled_variableCount]
  rfl

theorem tableau_scaled : Agrees (Tableau.scaled k) c.tableau (c.scaled k).tableau := by
  unfold tableau
  rw [scaled_matrix]
  exact (Agrees.refl _).bind fun matrix => Tableau.start_scaled matrix c.values c.problem.cost

theorem solve_scaled (hk : 0 < k) (verbosity : Verbosity) (fuel : ℕ) :
    Agrees id (c.solve verbosity fuel).outcome ((c.scaled k).solve verbosity fuel).outcome := by
  unfold solve
  refine .logged_bind (.logged_lift (tableau_scaled c)) fun first => ?_
  refine .logged_bind (Tableau.phaseOne_scaled first hk verbosity fuel) fun run => ?_
  rcases run with ⟨redundant | _ | _, last⟩
  · refine .logged_bind (.refl _) fun _ => ?_
    refine .logged_bind (.logged_lift (Tableau.startPhaseTwo_scaled last)) fun second => ?_
    exact .logged_bind (Tableau.phaseTwo_scaled second hk verbosity fuel) fun run => .ok rfl
  · exact .ok rfl
  · exact .refl _

end CanonicalForm

namespace Problem

variable {k : ℚ} {p q : Problem ℚ} {configuration : Configuration}

/-- Two problems whose canonical forms agree up to a positive factor have the same result. -/
theorem twoPhase_agrees_of_canonicalForm (hk : 0 < k)
    (h : Agrees (CanonicalForm.scaled k) p.canonicalForm.outcome q.canonicalForm.outcome)
    (fuel : ℕ) :
    Agrees id (twoPhase fuel p configuration).outcome (twoPhase fuel q configuration).outcome := by
  by_cases hmethod : configuration.method = .primalSimplex
  · cases hpresolve : configuration.presolve with
    | true =>
      rw [outcome_of_presolve fuel hmethod hpresolve, outcome_of_presolve fuel hmethod hpresolve]
      exact .error _
    | false =>
      rw [twoPhase_outcome hmethod hpresolve, twoPhase_outcome hmethod hpresolve]
      exact h.bind fun c => (c.solve_scaled hk _ fuel).bind fun outcome => .refl _
  · rw [outcome_of_method fuel hmethod, outcome_of_method fuel hmethod]
    exact .error _

/-- Over the rationals there is no overflow. -/
theorem Reachable.twoPhase_eq (hp : p.Reachable) {fuel : ℕ}
    (h : Agrees id (twoPhase fuel p configuration).outcome
      (twoPhase fuel q configuration).outcome) :
    (twoPhase fuel q configuration).outcome = (twoPhase fuel p configuration).outcome := by
  rcases h with hover | hsame
  · exact absurd hover ((hp.wellFormed.failsOrderly configuration fuel).no_fault .overflow)
  · rw [Except.map_id] at hsame
    exact hsame.symm

/-- The method returns the same for a problem whose costs are multiplied by a positive number, and
for the problem in the other direction with costs multiplied by a negative one: the same solution,
in the same number of steps or in none. -/
theorem twoPhase_scaled (hp : p.Reachable) (hk : 0 < k) (configuration : Configuration) (fuel : ℕ) :
    (twoPhase fuel (p.scaled k) configuration).outcome =
        (twoPhase fuel p configuration).outcome ∧
      (twoPhase fuel (p.reversed k) configuration).outcome =
        (twoPhase fuel p configuration).outcome :=
  ⟨hp.twoPhase_eq (twoPhase_agrees_of_canonicalForm hk p.canonicalForm_scaled fuel),
    hp.twoPhase_eq (twoPhase_agrees_of_canonicalForm hk p.canonicalForm_reversed fuel)⟩

theorem twoPhase_scaled_mixed :
    Mixed.coupled.Reachable ∧ (0 : ℚ) < 5 / 2 ∧
      (twoPhase 10 (Mixed.coupled.scaled (5 / 2)) {}).outcome =
        (twoPhase 10 Mixed.coupled {}).outcome ∧
      (twoPhase 10 (Mixed.coupled.reversed (5 / 2)) {}).outcome =
        (twoPhase 10 Mixed.coupled {}).outcome :=
  ⟨Mixed.reachable_coupled, by norm_num,
    twoPhase_scaled Mixed.reachable_coupled (by norm_num) {} 10⟩

end Problem

end LinearOpt

import LinearOpt.Proofs.Exact
import LinearOpt.Proofs.Refinement.Canonical

/-!
# The canonical form of a problem with other costs

`Problem.scaled k` multiplies every cost by `k`, and `Problem.reversed k` multiplies by `-k` and
turns the direction around.  The first pass makes the same of both up to the factor
(`minimized_scaled` and `minimized_reversed`).  No pass decides anything by a cost, and what a pass
computes from costs is linear in them, so from there on each pass commutes with the factor.  The
canonical forms differ only in their costs: `canonicalForm_scaled` and `canonicalForm_reversed`.

The rules of `Agrees` carry this through the passes.  They allow for an overflow, which the rational
numbers do not have.
-/

namespace LinearOpt

/-- The other direction. -/
def Objective.flipped : Objective → Objective
  | .minimize => .maximize
  | .maximize => .minimize

namespace Problem

/-- The problem with every cost multiplied by `k`. -/
def scaled (k : ℚ) (p : Problem ℚ) : Problem ℚ := { p with cost := p.cost.map (k * ·) }

/-- The problem in the other direction, with every cost multiplied by `-k`. -/
def reversed (k : ℚ) (p : Problem ℚ) : Problem ℚ :=
  { p with objective := p.objective.flipped, cost := p.cost.map (-k * ·) }

variable {k : ℚ} (p : Problem ℚ)

@[simp] theorem scaled_variableCount : (p.scaled k).variableCount = p.variableCount :=
  List.length_map _

/-- Only the number of costs is checked. -/
theorem checkDimensions_of_cost {q : Problem ℚ} (hcost : q.cost.length = p.cost.length)
    (hvariables : q.variableBounds = p.variableBounds)
    (hconstraints : q.constraintBounds = p.constraintBounds) (hentries : q.entries = p.entries)
    (hindex : q.index = p.index) : q.checkDimensions = p.checkDimensions := by
  simp only [checkDimensions, checkConstraint, checkVariable, variableCount, constraintCount, hcost,
    hvariables, hconstraints, hentries, hindex]
  rfl

/-! ## Direction -/

theorem minimized_scaled : Agrees (scaled k) p.minimized (p.scaled k).minimized := by
  have hobjective : (p.scaled k).objective = p.objective := rfl
  unfold minimized
  rw [hobjective]
  cases p.objective with
  | minimize => exact .ok rfl
  | maximize =>
    refine Agrees.map (f := List.map (k * ·)) (.mapM rfl fun cost => ?_) fun cost => rfl
    exact .ok (mul_neg k cost)

/-- Turning the direction around and the costs with it changes the minimisation by the factor. -/
theorem minimized_reversed : Agrees (scaled k) p.minimized (p.reversed k).minimized := by
  have hobjective : (p.reversed k).objective = p.objective.flipped := rfl
  unfold minimized
  rw [hobjective]
  cases hp : p.objective with
  | minimize =>
    dsimp only [Objective.flipped]
    rw [Exact.mapM_neg, ok_bind]
    refine .ok ?_
    simp [scaled, reversed, hp, Function.comp_def]
  | maximize =>
    dsimp only [Objective.flipped]
    rw [Exact.mapM_neg, ok_bind]
    refine .ok ?_
    simp [scaled, reversed, hp, Function.comp_def, Objective.flipped]

/-! ## Variables -/

theorem scaled_insert (e : Entry ℚ) :
    (p.insert e false).map (scaled k) = (p.scaled k).insert e false := by
  have hindex : (p.scaled k).index[(e.row, e.column)]? = p.index[(e.row, e.column)]? := rfl
  unfold insert
  rw [hindex]
  cases p.index[(e.row, e.column)]? with
  | none => rfl
  | some position => exact map_bind_same fun entries => rfl

theorem scaled_appendColumn (cost : ℚ) (column : List (ℕ × ℚ)) :
    (p.appendColumn cost column).map (scaled k) =
      (p.scaled k).appendColumn (k * cost) column := by
  unfold appendColumn
  have hstart : scaled k { p with
      cost := p.cost ++ [cost], variableBounds := p.variableBounds ++ [.nonnegative] } =
      { p.scaled k with
        cost := (p.scaled k).cost ++ [k * cost]
        variableBounds := (p.scaled k).variableBounds ++ [.nonnegative] } := by
    simp [scaled]
  rw [← hstart, scaled_variableCount]
  conv_rhs => rw [← List.map_id column]
  exact map_foldlM (fun q entry => scaled_insert q _) column _

theorem moveConstant_scaled (j : ℕ) (x : ℚ) :
    Agrees (scaled k) (p.moveConstant j x) ((p.scaled k).moveConstant j x) :=
  (Agrees.refl _).map fun _ => rfl

theorem negateColumn_scaled (j : ℕ) :
    Agrees (scaled k) (p.negateColumn j) ((p.scaled k).negateColumn j) := by
  unfold negateColumn
  have hneg : ∀ cost : ℚ, Agrees (k * ·) (Scalar.neg cost) (Scalar.neg (k * cost)) :=
    fun cost => .ok (mul_neg k cost)
  exact (Agrees.update hneg p.cost j).bind fun cost => (Agrees.refl _).map fun entries => rfl

theorem splitVariable_scaled (j : ℕ) :
    Agrees (Prod.map (scaled k) id) (p.splitVariable j) ((p.scaled k).splitVariable j) := by
  unfold splitVariable
  refine (Agrees.refl _).bind fun column => (Agrees.fetch (k * ·) p.cost j).bind fun old => ?_
  refine Agrees.bind (f := (k * ·)) (.ok (mul_neg k old)) fun cost => ?_
  refine Agrees.map (.of_map (scaled_appendColumn p cost column)) fun q => ?_
  rw [scaled_variableCount]
  rfl

theorem reflectVariable_scaled (j : ℕ) (upper : ℚ) :
    Agrees (Prod.map (scaled k) id) (p.reflectVariable j upper)
      ((p.scaled k).reflectVariable j upper) :=
  (moveConstant_scaled p j upper).bind fun moved => (negateColumn_scaled moved j).bind fun _ =>
    (Agrees.refl _).map fun _ => rfl

theorem shiftVariable_scaled (j : ℕ) (lower : ℚ) (upper : Option ℚ) :
    Agrees (Prod.map (scaled k) id) (p.shiftVariable j lower upper)
      ((p.scaled k).shiftVariable j lower upper) := by
  unfold shiftVariable
  cases upper with
  | none =>
    dsimp only
    split
    · exact .ok rfl
    · exact (moveConstant_scaled p j lower).map fun moved => rfl
  | some upper =>
    dsimp only
    split
    · refine Agrees.bind (f := scaled k) (.ok rfl) fun moved => ?_
      refine (Agrees.refl (Scalar.sub upper lower)).bind fun amount => ?_
      exact Agrees.map (.of_map (scaled_insert _ _)) fun q => rfl
    · refine (moveConstant_scaled p j lower).bind fun moved => ?_
      refine (Agrees.refl (Scalar.sub upper lower)).bind fun amount => ?_
      exact Agrees.map (.of_map (scaled_insert _ _)) fun q => rfl

theorem normalizeVariable_scaled (j : ℕ) :
    Agrees (Prod.map (scaled k) id) (p.normalizeVariable j)
      ((p.scaled k).normalizeVariable j) := by
  unfold normalizeVariable
  refine (Agrees.refl _).bind fun bounds => ?_
  rcases bounds with ⟨_ | lower, _ | upper⟩
  · exact splitVariable_scaled _ j
  · exact reflectVariable_scaled _ j upper
  · exact shiftVariable_scaled _ j lower none
  · exact shiftVariable_scaled _ j lower (some upper)

theorem normalizeEach_scaled (js : List ℕ) (p : Problem ℚ) :
    Agrees (Prod.map (scaled k) id) (p.normalizeEach js) ((p.scaled k).normalizeEach js) := by
  induction js generalizing p with
  | nil => exact .ok rfl
  | cons j js ih =>
    refine (normalizeVariable_scaled p j).bind fun here => ?_
    exact (ih here.1).map fun later => rfl

theorem normalizeVariables_scaled :
    Agrees (Prod.map (scaled k) id) p.normalizeVariables (p.scaled k).normalizeVariables := by
  unfold normalizeVariables
  rw [scaled_variableCount]
  exact normalizeEach_scaled _ p

/-! ## Constraints -/

theorem splitRange_scaled (i : ℕ) :
    Agrees (Prod.map (scaled k) id) (p.splitRange i) ((p.scaled k).splitRange i) := by
  unfold splitRange
  refine (Agrees.refl _).bind fun bounds => ?_
  dsimp only [id]
  split
  · refine Agrees.map (f := scaled k) ?_ fun q => rfl
    exact .foldlM (List.map_id _).symm (fun q term => .of_map (scaled_insert q _)) _
  · exact .ok rfl

theorem splitEach_scaled (is : List ℕ) (p : Problem ℚ) :
    Agrees (Prod.map (scaled k) id) (p.splitEach is) ((p.scaled k).splitEach is) := by
  induction is generalizing p with
  | nil => exact .ok rfl
  | cons i is ih =>
    refine (splitRange_scaled p i).bind fun here => ?_
    exact (ih here.1).map fun later => rfl

/-- A slack costs nothing. -/
theorem scaled_withSlack (i : ℕ) (value coefficient : ℚ) :
    (p.withSlack i value coefficient).map (scaled k) =
      (p.scaled k).withSlack i value coefficient := by
  unfold withSlack
  rw [scaled_appendColumn, Exact.zero_eq, mul_zero]
  rfl

theorem scaled_addSlack (i : ℕ) :
    (p.addSlack i).map (Prod.map (scaled k) id) = (p.scaled k).addSlack i := by
  unfold addSlack
  refine map_bind_same fun bounds => ?_
  rcases bounds with ⟨_ | lower, _ | upper⟩
  · rfl
  · refine map_bind (f := scaled k) ?_ fun q => rfl
    rw [map_lift, scaled_withSlack]
  · refine map_bind_same fun coefficient => map_bind (f := scaled k) ?_ fun q => rfl
    rw [map_lift, scaled_withSlack]
  · rfl

theorem scaled_slackEach (is : List ℕ) (p : Problem ℚ) :
    Prod.map (scaled k) id (p.slackEach is) = (p.scaled k).slackEach is := by
  induction is generalizing p with
  | nil => rfl
  | cons i is ih =>
    unfold slackEach
    rw [← scaled_addSlack]
    cases p.addSlack i with
    | error e => rfl
    | ok here =>
      simp only [Except.map, Prod.map_fst, ← ih]
      rfl

/-! ## All passes -/

/-- What two problems with the same minimisation up to a factor come to. -/
theorem normalize_of_minimized {p q : Problem ℚ}
    (h : Agrees (scaled k) p.minimized q.minimized) :
    Agrees (Prod.map (scaled k) id) p.normalize q.normalize := by
  unfold normalize
  refine h.bind fun p => (normalizeVariables_scaled p).bind fun normalized => ?_
  refine (splitEach_scaled _ normalized.1).bind fun split => ?_
  have hslacks : Prod.map (scaled k) id split.1.addSlacks = (split.1.scaled k).addSlacks :=
    scaled_slackEach _ _
  dsimp only [Prod.map]
  rw [← hslacks]
  rcases split.1.addSlacks with ⟨q, _ | slacks⟩
  · exact .ok rfl
  · exact Agrees.map (f := scaled k) ((Agrees.refl _).bind fun bounds =>
      (Agrees.refl _).map fun entries => rfl) fun q => rfl

end Problem

/-- The canonical form with every cost multiplied by `k`. -/
def CanonicalForm.scaled (k : ℚ) (c : CanonicalForm ℚ) : CanonicalForm ℚ :=
  { c with problem := c.problem.scaled k }

namespace Problem

variable {k : ℚ} (p : Problem ℚ)

theorem canonicalForm_of_minimized {p q : Problem ℚ}
    (htransformed : q.transformed = p.transformed)
    (hdimensions : q.checkDimensions = p.checkDimensions)
    (h : Agrees (scaled k) p.minimized q.minimized) :
    Agrees (CanonicalForm.scaled k) p.canonicalForm.outcome q.canonicalForm.outcome := by
  refine canonicalForm_agrees_of_normalize (f := scaled k) (g := id) htransformed hdimensions
    (fun r => rfl) ?_
  have hid : Except.map (ε := Failure) (Prod.map (id : List (Recovery ℚ) → _) (id : ℕ × ℕ → _)) =
      id := by
    rw [Prod.map_id]
    exact funext fun x => by cases x <;> rfl
  rw [hid]
  exact normalize_of_minimized h

theorem canonicalForm_scaled :
    Agrees (CanonicalForm.scaled k) p.canonicalForm.outcome (p.scaled k).canonicalForm.outcome :=
  canonicalForm_of_minimized rfl
    (p.checkDimensions_of_cost (List.length_map _) rfl rfl rfl rfl) p.minimized_scaled

theorem canonicalForm_reversed :
    Agrees (CanonicalForm.scaled k) p.canonicalForm.outcome (p.reversed k).canonicalForm.outcome :=
  canonicalForm_of_minimized rfl
    (p.checkDimensions_of_cost (List.length_map _) rfl rfl rfl rfl) p.minimized_reversed

end Problem

end LinearOpt

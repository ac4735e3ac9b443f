import LinearOpt.Proofs.Canonical.Equivalent

/-!
# Coefficients that are stored differently

The order in which coefficients were set decides the order of the entries of a problem, and with it
the order in which the passes adjust bounds, copy rows and columns and append entries.  Setting a
coefficient to zero leaves an entry that another problem does not have.  None of this reaches the
result.

`SameData p q` says that two problems have the same data up to the storage of coefficients, which is
compared by the linear forms that it stands for.  Each pass keeps this and returns the same besides
(`SameResult`), one lemma for each pass in the order of the code.  In the end the two canonical
problems have the same dense matrix (`SameData.matrix_eq`), and from there on the code runs on equal
data.
-/

namespace LinearOpt

namespace Problem

variable {p q : Problem ℚ}

/-- The problems differ at most in how their coefficients are stored. -/
structure SameData (p q : Problem ℚ) : Prop where
  left_wellFormed : p.WellFormed
  right_wellFormed : q.WellFormed
  objective_eq : p.objective = q.objective
  cost_eq : p.cost = q.cost
  variableBounds_eq : p.variableBounds = q.variableBounds
  constraintBounds_eq : p.constraintBounds = q.constraintBounds
  rowForm_eq : ∀ i z, rowForm p.entries i z = rowForm q.entries i z

/-- What a pass returns for each of the problems. -/
def SameResult {α : Type} (x y : Problem ℚ × α) : Prop := SameData x.1 y.1 ∧ x.2 = y.2

namespace SameData

theorem variableCount_eq (h : SameData p q) : p.variableCount = q.variableCount := by
  rw [variableCount, h.cost_eq, variableCount]

theorem constraintCount_eq (h : SameData p q) : p.constraintCount = q.constraintCount := by
  rw [constraintCount, h.constraintBounds_eq, constraintCount]

/-- A coefficient is what its row gains when the variable grows by one. -/
theorem coefficientAt_eq (h : SameData p q) (i j : ℕ) :
    coefficientAt p.entries i j = coefficientAt q.entries i j := by
  have hgain : ∀ es : List (Entry ℚ), coefficientAt es i j =
      rowForm es i (Function.update 0 j 1) - rowForm es i 0 := by
    intro es
    rw [rowForm_update, Pi.zero_apply]
    ring
  rw [hgain, hgain, h.rowForm_eq, h.rowForm_eq]

/-! ## Direction -/

theorem minimized (h : SameData p q) : Alike SameData p.minimized q.minimized := by
  unfold Problem.minimized
  rw [h.objective_eq]
  cases q.objective with
  | minimize => exact .ok h
  | maximize =>
    rw [Exact.mapM_neg, Exact.mapM_neg]
    have hwf : ∀ r : Problem ℚ, r.WellFormed →
        WellFormed { r with objective := .minimize, cost := r.cost.map (- ·) } := fun r hr =>
      hr.of_keys_eq rfl rfl (List.length_map _) rfl rfl hr.bounded
    refine .ok ⟨hwf p h.left_wellFormed, hwf q h.right_wellFormed, rfl, ?_, h.variableBounds_eq,
      h.constraintBounds_eq, h.rowForm_eq⟩
    rw [h.cost_eq]

/-! ## Variables -/

theorem withNonnegative (h : SameData p q) (j : ℕ) :
    SameData (p.withNonnegative j) (q.withNonnegative j) where
  left_wellFormed := withNonnegative_wellFormed h.left_wellFormed j
  right_wellFormed := withNonnegative_wellFormed h.right_wellFormed j
  objective_eq := h.objective_eq
  cost_eq := h.cost_eq
  variableBounds_eq := by simp only [Problem.withNonnegative, h.variableBounds_eq]
  constraintBounds_eq := h.constraintBounds_eq
  rowForm_eq := h.rowForm_eq

theorem splitVariable (h : SameData p q) {j : ℕ} (hj : j < p.variableCount) :
    Alike SameResult (p.splitVariable j) (q.splitVariable j) := by
  obtain ⟨index, hrun, hwf⟩ := splitVariable_eq h.left_wellFormed hj
  obtain ⟨index', hrun', hwf'⟩ := splitVariable_eq h.right_wellFormed (h.variableCount_eq ▸ hj)
  rw [hrun, hrun']
  refine .ok ⟨⟨hwf, hwf', h.objective_eq, ?_, ?_, h.constraintBounds_eq, fun i z => ?_⟩, ?_⟩
  · simp only [h.cost_eq]
  · simp only [h.variableBounds_eq]
  · simp only [column, rowForm_split, h.rowForm_eq, h.variableCount_eq]
  · simp only [h.variableCount_eq]

theorem reflectVariable (h : SameData p q) {j : ℕ} (hj : j < p.variableCount) (upper : ℚ) :
    Alike SameResult (p.reflectVariable j upper) (q.reflectVariable j upper) := by
  rw [reflectVariable_eq h.left_wellFormed hj,
    reflectVariable_eq h.right_wellFormed (h.variableCount_eq ▸ hj)]
  refine .ok ⟨⟨wellFormed_reflected h.left_wellFormed j upper,
    wellFormed_reflected h.right_wellFormed j upper, h.objective_eq, ?_, h.variableBounds_eq, ?_,
    fun i z => ?_⟩, rfl⟩
  · simp only [h.cost_eq]
  · simp only [h.constraintBounds_eq, h.coefficientAt_eq]
  · simp only [rowForm_negated, h.rowForm_eq]

theorem shiftedBounds_eq (h : SameData p q) (j : ℕ) (lower : ℚ) :
    p.shiftedBounds j lower = q.shiftedBounds j lower := by
  simp only [shiftedBounds, h.constraintBounds_eq, h.coefficientAt_eq]

theorem shiftVariable (h : SameData p q) {j : ℕ} (hj : j < p.variableCount) (lower : ℚ)
    (upper : Option ℚ) :
    Alike SameResult (p.shiftVariable j lower upper) (q.shiftVariable j lower upper) := by
  cases upper with
  | none =>
    rw [shiftVariable_eq h.left_wellFormed, shiftVariable_eq h.right_wellFormed]
    exact .ok ⟨⟨wellFormed_shifted h.left_wellFormed j lower,
      wellFormed_shifted h.right_wellFormed j lower, h.objective_eq, h.cost_eq,
      h.variableBounds_eq, h.shiftedBounds_eq j lower, h.rowForm_eq⟩, rfl⟩
  | some upper =>
    obtain ⟨index, hrun, hwf⟩ := shiftVariable_some_eq h.left_wellFormed hj lower upper
    obtain ⟨index', hrun', hwf'⟩ :=
      shiftVariable_some_eq h.right_wellFormed (h.variableCount_eq ▸ hj) lower upper
    rw [hrun, hrun']
    refine .ok ⟨⟨hwf, hwf', h.objective_eq, h.cost_eq, h.variableBounds_eq, ?_, fun i z => ?_⟩,
      rfl⟩
    · simp only [h.shiftedBounds_eq]
    · simp only [rowForm_append, rowForm_rowEntries, h.rowForm_eq, h.constraintCount_eq]

theorem normalizeVariable (h : SameData p q) (j : ℕ) :
    Alike SameResult (p.normalizeVariable j) (q.normalizeVariable j) := by
  have hfetch : fetch p.variableBounds j = fetch q.variableBounds j := by rw [h.variableBounds_eq]
  unfold Problem.normalizeVariable
  rw [← hfetch]
  refine .bind_same fun b hb => ?_
  have hj := variableBounds_lt h.left_wellFormed (fetch_eq_ok_iff.mp hb)
  have hnonnegative := h.withNonnegative j
  obtain ⟨lower, upper⟩ := b
  cases lower with
  | some lower => exact hnonnegative.shiftVariable hj lower upper
  | none =>
    cases upper with
    | none => exact hnonnegative.splitVariable hj
    | some upper => exact hnonnegative.reflectVariable hj upper

theorem normalizeEach (h : SameData p q) (js : List ℕ) :
    Alike SameResult (p.normalizeEach js) (q.normalizeEach js) := by
  induction js generalizing p q with
  | nil => exact .ok ⟨h, rfl⟩
  | cons j js ih =>
    refine (h.normalizeVariable j).bind ?_
    rintro ⟨p', r⟩ ⟨q', r'⟩ ⟨hmid, hr⟩
    refine (ih hmid).bind ?_
    rintro ⟨p'', rs⟩ ⟨q'', rs'⟩ ⟨hend, hrs⟩
    exact .ok ⟨hend, congrArg₂ List.cons hr hrs⟩

theorem normalizeVariables (h : SameData p q) :
    Alike SameResult p.normalizeVariables q.normalizeVariables := by
  unfold Problem.normalizeVariables
  rw [h.variableCount_eq]
  exact h.normalizeEach _

/-! ## Constraints -/

theorem splitRange (h : SameData p q) (i : ℕ) :
    Alike SameResult (p.splitRange i) (q.splitRange i) := by
  cases hb : p.constraintBounds[i]? with
  | none =>
    unfold Problem.splitRange fetch
    rw [← h.constraintBounds_eq, hb]
    exact .error _
  | some b =>
    have hb' := hb
    rw [h.constraintBounds_eq] at hb'
    cases hrange : b.isRange with
    | false =>
      unfold Problem.splitRange
      rw [fetch_eq_ok hb, fetch_eq_ok hb', ok_bind, ok_bind, hrange]
      exact .ok ⟨h, rfl⟩
    | true =>
      obtain ⟨index, hrun, hwf⟩ := splitRange_eq h.left_wellFormed hb hrange
      obtain ⟨index', hrun', hwf'⟩ := splitRange_eq h.right_wellFormed hb' hrange
      rw [hrun, hrun']
      refine .ok ⟨⟨hwf, hwf', h.objective_eq, h.cost_eq, h.variableBounds_eq, ?_,
        fun k z => ?_⟩, rfl⟩
      · simp only [h.constraintBounds_eq]
      · simp only [rowForm_append, rowForm_rowEntries, row, sum_row, h.rowForm_eq,
          h.constraintCount_eq]

theorem splitEach (h : SameData p q) (is : List ℕ) :
    Alike SameResult (p.splitEach is) (q.splitEach is) := by
  induction is generalizing p q with
  | nil => exact .ok ⟨h, rfl⟩
  | cons i is ih =>
    refine (h.splitRange i).bind ?_
    rintro ⟨p', here⟩ ⟨q', here'⟩ ⟨hmid, hhere⟩
    refine (ih hmid).bind ?_
    rintro ⟨p'', later⟩ ⟨q'', later'⟩ ⟨hend, hlater⟩
    exact .ok ⟨hend, congrArg₂ (· + ·) hhere hlater⟩

theorem splitRanges (h : SameData p q) : Alike SameResult p.splitRanges q.splitRanges := by
  unfold Problem.splitRanges
  rw [h.constraintCount_eq]
  exact h.splitEach _

theorem withSlack (h : SameData p q) {i : ℕ} (hi : i < p.constraintCount)
    (value coefficient : ℚ) :
    Alike SameData (p.withSlack i value coefficient) (q.withSlack i value coefficient) := by
  obtain ⟨index, hrun, hwf⟩ := withSlack_eq h.left_wellFormed hi value coefficient
  obtain ⟨index', hrun', hwf'⟩ :=
    withSlack_eq h.right_wellFormed (h.constraintCount_eq ▸ hi) value coefficient
  rw [hrun, hrun']
  refine .ok ⟨hwf, hwf', h.objective_eq, ?_, ?_, ?_, fun k z => ?_⟩
  · simp only [h.cost_eq]
  · simp only [h.variableBounds_eq]
  · simp only [h.constraintBounds_eq]
  · simp only [rowForm_append, rowForm_columnEntries, h.rowForm_eq, h.variableCount_eq]

theorem addSlack (h : SameData p q) (i : ℕ) :
    Alike SameResult (p.addSlack i) (q.addSlack i) := by
  have hfetch : fetch p.constraintBounds i = fetch q.constraintBounds i := by
    rw [h.constraintBounds_eq]
  unfold Problem.addSlack
  rw [← hfetch]
  refine .bind_same fun b hb => ?_
  have hi : i < p.constraintCount := lt_length_of_fetch (liftM_eq_ok.mp hb)
  obtain ⟨lower, upper⟩ := b
  cases lower with
  | none =>
    cases upper with
    | none => exact .error _
    | some upper => exact (h.withSlack hi upper 1).lift.bind fun p' q' hnext => .ok ⟨hnext, rfl⟩
  | some lower =>
    cases upper with
    | none => exact (h.withSlack hi lower (-1)).lift.bind fun p' q' hnext => .ok ⟨hnext, rfl⟩
    | some upper => exact .ok ⟨h, rfl⟩

theorem slackEach (h : SameData p q) (is : List ℕ) :
    SameResult (p.slackEach is) (q.slackEach is) := by
  induction is generalizing p q with
  | nil => exact ⟨h, rfl⟩
  | cons i is ih =>
    have hstep := h.addSlack i
    unfold Problem.slackEach
    generalize p.addSlack i = x at hstep ⊢
    generalize q.addSlack i = y at hstep ⊢
    cases hstep with
    | error e => exact ⟨h, rfl⟩
    | ok hmid =>
      obtain ⟨hmid, hhere⟩ := hmid
      obtain ⟨hend, hlater⟩ := ih hmid
      refine ⟨hend, ?_⟩
      dsimp only
      rw [hhere, hlater]

theorem addSlacks (h : SameData p q) : SameResult p.addSlacks q.addSlacks := by
  unfold Problem.addSlacks
  rw [h.constraintCount_eq]
  exact h.slackEach _

theorem withNonnegativeValues (h : SameData p q) :
    Alike SameData p.withNonnegativeValues q.withNonnegativeValues := by
  rw [withNonnegativeValues_eq h.left_wellFormed, withNonnegativeValues_eq h.right_wellFormed]
  refine .ok ⟨wellFormed_unsigned h.left_wellFormed, wellFormed_unsigned h.right_wellFormed,
    h.objective_eq, h.cost_eq, h.variableBounds_eq, ?_, fun i z => ?_⟩
  · simp only [h.constraintBounds_eq]
  · simp only [rowForm_signed, h.rowForm_eq, h.constraintBounds_eq]

/-! ## The canonical form -/

theorem normalize (h : SameData p q) : Alike SameResult p.normalize q.normalize := by
  refine h.minimized.bind fun p₁ q₁ h₁ => ?_
  refine h₁.normalizeVariables.bind ?_
  rintro ⟨p₂, rs⟩ ⟨q₂, rs'⟩ ⟨h₂, hrs⟩
  refine h₂.splitRanges.bind ?_
  rintro ⟨p₃, ranges⟩ ⟨q₃, ranges'⟩ ⟨h₃, hranges⟩
  dsimp only at hrs hranges h₃ ⊢
  have hslacks := h₃.addSlacks
  generalize p₃.addSlacks = x at hslacks ⊢
  generalize q₃.addSlacks = y at hslacks ⊢
  obtain ⟨p₄, slacks⟩ := x
  obtain ⟨q₄, slacks'⟩ := y
  obtain ⟨h₄, hslacks⟩ := hslacks
  dsimp only at h₄ hslacks ⊢
  subst hrs hranges hslacks
  cases slacks with
  | error e => exact .ok ⟨h₄, rfl⟩
  | ok slacks =>
    refine h₄.withNonnegativeValues.bind fun p₅ q₅ h₅ => ?_
    refine .ok ⟨⟨?_, ?_, h₅.objective_eq, h₅.cost_eq, h₅.variableBounds_eq,
      h₅.constraintBounds_eq, h₅.rowForm_eq⟩, rfl⟩
    · exact h₅.left_wellFormed.of_keys_eq rfl rfl rfl rfl rfl h₅.left_wellFormed.bounded
    · exact h₅.right_wellFormed.of_keys_eq rfl rfl rfl rfl rfl h₅.right_wellFormed.bounded

theorem isCanonical_eq (h : SameData p q) : p.isCanonical = q.isCanonical := by
  unfold isCanonical
  rw [h.objective_eq, h.variableBounds_eq, h.constraintBounds_eq]

end SameData

/-- What the way to canonical form reports and returns if all passes succeed. -/
theorem canonicalForm_of_normalize (hp : p.WellFormed) (hfresh : p.transformed = false)
    {rs : List (Recovery ℚ)} {slacks ranges : ℕ}
    (hrun : p.normalize = .ok (q, .ok (rs, slacks, ranges))) (hcanonical : q.isCanonical = true) :
    p.canonicalForm =
      ⟨[.canonical
        { variablesBefore := p.variableCount
          variablesAfter := q.variableCount
          slacks
          constraintsBefore := p.constraintCount
          constraintsAfter := q.constraintCount
          ranges }], .ok { problem := q, recoveries := rs }⟩ := by
  unfold canonicalForm toCanonical
  rw [hfresh, hp.checkDimensions_eq, hrun]
  simp only [Bool.false_eq_true, if_false, hcanonical, require_true]
  rfl

theorem SameData.canonicalForm (h : SameData p q) (hp : p.transformed = false)
    (hq : q.transformed = false) :
    ∃ events c d, p.canonicalForm = ⟨events, .ok c⟩ ∧ q.canonicalForm = ⟨events, .ok d⟩ ∧
      SameData c.problem d.problem ∧ c.recoveries = d.recoveries := by
  obtain ⟨p', rs, slacks, ranges, hrun, hcanonical, -⟩ := normalize_spec h.left_wellFormed
  have hsame := h.normalize
  rw [hrun] at hsame
  obtain ⟨⟨q', rest⟩, hrun', hdata, hrest⟩ := hsame.exists_of_ok
  dsimp only at hdata hrest
  subst hrest
  have hform := canonicalForm_of_normalize h.left_wellFormed hp hrun hcanonical.isCanonical_eq
  have hform' := canonicalForm_of_normalize h.right_wellFormed hq hrun'
    (hdata.isCanonical_eq ▸ hcanonical.isCanonical_eq)
  rw [← h.variableCount_eq, ← h.constraintCount_eq, ← hdata.variableCount_eq,
    ← hdata.constraintCount_eq] at hform'
  exact ⟨_, _, _, hform, hform', hdata, rfl⟩

/-! ## The method -/

section Method

variable {c d : CanonicalForm ℚ}

theorem SameData.matrix_eq (h : SameData c.problem d.problem) : c.matrix = d.matrix := by
  rw [Problem.matrix_eq h.left_wellFormed, Problem.matrix_eq h.right_wellFormed]
  simp only [h.coefficientAt_eq]
  rw [h.constraintCount_eq, h.variableCount_eq]

/-- All that the method reads of a canonical problem is its first tableau. -/
theorem SameData.solve_eq (h : SameData c.problem d.problem) (verbosity : Verbosity) (fuel : ℕ) :
    c.solve verbosity fuel = d.solve verbosity fuel := by
  have htableau : c.tableau = d.tableau := by
    unfold CanonicalForm.tableau CanonicalForm.values
    rw [h.matrix_eq, h.constraintBounds_eq, h.cost_eq]
  unfold CanonicalForm.solve
  rw [htableau]

end Method

theorem SameData.twoPhase_eq (h : SameData p q) (hp : p.transformed = false)
    (hq : q.transformed = false) (configuration : Configuration) (fuel : ℕ) :
    twoPhase fuel p configuration = twoPhase fuel q configuration := by
  obtain ⟨events, c, d, hform, hform', hdata, hrecoveries⟩ := h.canonicalForm hp hq
  unfold twoPhase CanonicalForm.reconstruct
  rw [hform, hform', Logged.bind_of_ok (x := ⟨events, .ok c⟩) rfl,
    Logged.bind_of_ok (x := ⟨events, .ok d⟩) rfl]
  dsimp only
  rw [hdata.solve_eq, hrecoveries, h.variableCount_eq, h.constraintCount_eq]

/-! ## Equal coefficients -/

theorem map_coefficient? (hp : p.WellFormed) (i j : ℕ) :
    (p.coefficient? i j).map (·.getD 0) = .ok (coefficientAt p.entries i j) := by
  obtain ⟨value, hrun, hvalue⟩ := coefficient?_eq hp i j
  rw [hrun, ← hvalue]
  rfl

/-- There are no coefficients outside of the constraints and variables. -/
theorem coefficientAt_outside (hp : p.WellFormed) {i j : ℕ}
    (h : ¬(i < p.constraintCount ∧ j < p.variableCount)) : coefficientAt p.entries i j = 0 :=
  coefficientAt_eq_zero fun hkey => h (hp.key_lt (i, j) hkey)

/-- Rows are equal if their coefficients are. -/
theorem sameData_of_coefficients (hp : p.WellFormed) (hq : q.WellFormed)
    (hobjective : p.objective = q.objective) (hcost : p.cost = q.cost)
    (hvariables : p.variableBounds = q.variableBounds)
    (hconstraints : p.constraintBounds = q.constraintBounds)
    (hcoefficients : ∀ i < p.constraintCount, ∀ j < p.variableCount,
      (p.coefficient? i j).map (·.getD 0) = (q.coefficient? i j).map (·.getD 0)) :
    SameData p q := by
  have hvariableCount : p.variableCount = q.variableCount := congrArg List.length hcost
  have hconstraintCount : p.constraintCount = q.constraintCount :=
    congrArg List.length hconstraints
  have heq : ∀ i j, coefficientAt p.entries i j = coefficientAt q.entries i j := by
    intro i j
    by_cases hlt : i < p.constraintCount ∧ j < p.variableCount
    · have hcell := hcoefficients i hlt.1 j hlt.2
      rw [map_coefficient? hp, map_coefficient? hq] at hcell
      exact Except.ok.inj hcell
    · have hlt' := hlt
      rw [hconstraintCount, hvariableCount] at hlt'
      rw [coefficientAt_outside hp hlt, coefficientAt_outside hq hlt']
  refine ⟨hp, hq, hobjective, hcost, hvariables, hconstraints, fun i z => ?_⟩
  rw [rowForm_eq_sum hp.column_lt, rowForm_eq_sum hq.column_lt, hvariableCount]
  simp only [heq]

/-- Two problems that can be built and have the same direction, costs, bounds and coefficients are
solved in the same way, with the same result after any number of steps, however their coefficients
came about. -/
theorem twoPhase_ignores_storage (hp : p.Reachable) (hq : q.Reachable)
    (hpfresh : p.transformed = false) (hqfresh : q.transformed = false)
    (hobjective : p.objective = q.objective) (hcost : p.cost = q.cost)
    (hvariables : p.variableBounds = q.variableBounds)
    (hconstraints : p.constraintBounds = q.constraintBounds)
    (hcoefficients : ∀ i < p.constraintCount, ∀ j < p.variableCount,
      (p.coefficient? i j).map (·.getD 0) = (q.coefficient? i j).map (·.getD 0))
    (configuration : Configuration) (fuel : ℕ) :
    twoPhase fuel p configuration = twoPhase fuel q configuration :=
  (sameData_of_coefficients hp.wellFormed hq.wellFormed hobjective hcost hvariables hconstraints
    hcoefficients).twoPhase_eq hpfresh hqfresh configuration fuel

namespace Mixed

/-- The coefficients of `coupled` in another order, with a zero that is stored. -/
def recoupled : Problem ℚ :=
  { uncoupled with
    entries := [⟨0, 1, 1⟩, ⟨0, 2, 0⟩, ⟨0, 0, 1⟩]
    index := ((uncoupled.index.insert (0, 1) 0).insert (0, 2) 1).insert (0, 0) 2 }

theorem reachable_recoupled : recoupled.Reachable := by
  have hfirst := stateAfter_setCoefficient reachable_uncoupled.wellFormed.indexed (i := 0) (j := 1)
    (by decide) (by decide) (by decide) 1 false
  have hreachable := Reachable.edit (.setCoefficient 0 1 1 false) reachable_uncoupled
  rw [hfirst] at hreachable
  have hsecond := stateAfter_setCoefficient hreachable.wellFormed.indexed (i := 0) (j := 2)
    (by decide) (by decide) (by decide) 0 true
  have hreachable' := Reachable.edit (.setCoefficient 0 2 0 true) hreachable
  rw [hsecond] at hreachable'
  have hthird := stateAfter_setCoefficient hreachable'.wellFormed.indexed (i := 0) (j := 0)
    (by decide) (by decide) (by decide) 1 false
  have hreachable'' := Reachable.edit (.setCoefficient 0 0 1 false) hreachable'
  rw [hthird] at hreachable''
  exact hreachable''

theorem coefficients_recoupled : ∀ i < coupled.constraintCount, ∀ j < coupled.variableCount,
    (coupled.coefficient? i j).map (·.getD 0) = (recoupled.coefficient? i j).map (·.getD 0) := by
  intro i hi j hj
  rw [map_coefficient? reachable_coupled.wellFormed,
    map_coefficient? reachable_recoupled.wellFormed]
  have hcells : ∀ i < 1, ∀ j < 3,
      coefficientAt coupled.entries i j = coefficientAt recoupled.entries i j := by decide +kernel
  rw [hcells i hi j hj]

end Mixed

theorem twoPhase_ignores_storage_mixed :
    Mixed.coupled.Reachable ∧ Mixed.recoupled.Reachable ∧
      Mixed.coupled.transformed = false ∧ Mixed.recoupled.transformed = false ∧
      Mixed.coupled.entries ≠ Mixed.recoupled.entries ∧
      twoPhase 10 Mixed.coupled {} = twoPhase 10 Mixed.recoupled {} :=
  ⟨Mixed.reachable_coupled, Mixed.reachable_recoupled, rfl, rfl, by decide,
    twoPhase_ignores_storage Mixed.reachable_coupled Mixed.reachable_recoupled rfl rfl rfl rfl rfl
      rfl Mixed.coefficients_recoupled {} 10⟩

end Problem

end LinearOpt

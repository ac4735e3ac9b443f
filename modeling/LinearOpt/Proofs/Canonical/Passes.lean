import LinearOpt.Proofs.Canonical.Constraints
import LinearOpt.Proofs.Canonical.Variables

/-!
# The way to canonical form

The passes after one another.  `Canonicalized` is what all of them together make of a well-formed
problem, `normalize_spec` says that none of them fails, and `toCanonical_spec` and
`canonicalForm_spec` that nothing around them does.

`Reachable` is every problem that can be built: by edits, those that fail included, from a matrix, by
clearing, and by bringing it into canonical form in place.  All of these are well-formed
(`Reachable.wellFormed`), which is all that the passes need.  `Mixed.coupled` is one of them, with a
variable of each kind.
-/

namespace LinearOpt

namespace Problem

/-- The problem `q` is canonical and says the same as `p`, with the recoveries as the way back. -/
structure Canonicalized (p q : Problem ℚ) (rs : List (Recovery ℚ)) : Prop where
  wellFormed : q.WellFormed
  objective_eq : q.objective = .minimize
  variable_eq : ∀ b ∈ q.variableBounds, b = .nonnegative
  constraint_eq : ∀ b ∈ q.constraintBounds, ∃ value, b = ⟨some value, some value⟩ ∧ 0 ≤ value
  length_eq : rs.length = p.variableCount
  variableCount_le : p.variableCount ≤ q.variableCount
  paired_lt : ∀ r ∈ rs, ∀ i, r.paired = some i → i < q.variableCount
  reformulates : Reformulates p q (recovered 0 rs) p.objective.sign

variable {p : Problem ℚ}

/-- Only the passes look at whether a problem was transformed. -/
theorem Canonicalized.withTransformed {q : Problem ℚ} {rs : List (Recovery ℚ)}
    (h : Canonicalized p q rs) : Canonicalized p { q with transformed := true } rs where
  wellFormed := h.wellFormed.of_keys_eq rfl rfl rfl rfl rfl h.wellFormed.bounded
  objective_eq := h.objective_eq
  variable_eq := h.variable_eq
  constraint_eq := h.constraint_eq
  length_eq := h.length_eq
  variableCount_le := h.variableCount_le
  paired_lt := h.paired_lt
  reformulates :=
    { sound := fun z hz => h.reformulates.sound z ⟨hz.variable_holds, hz.constraint_holds⟩
      complete := fun z hz => by
        obtain ⟨w, hw, hback⟩ := h.reformulates.complete z hz
        exact ⟨w, ⟨hw.variable_holds, hw.constraint_holds⟩, hback⟩
      cost_eq := h.reformulates.cost_eq
      back_congr := h.reformulates.back_congr }

/-- No pass fails on a well-formed problem. -/
theorem normalize_spec (hp : p.WellFormed) :
    ∃ q rs slacks ranges, p.normalize = .ok (q, .ok (rs, slacks, ranges)) ∧
      Canonicalized p q rs ∧ q.transformed = true := by
  obtain ⟨p₁, hrun₁, hwf₁, hobjective₁, -, -, hcount₁, hreform₁⟩ := minimized_spec hp
  obtain ⟨p₂, rs, hrun₂, h₂⟩ := normalizeVariables_spec hwf₁
  obtain ⟨p₃, ranges, hrun₃, h₃, hranges⟩ := splitRanges_spec h₂.wellFormed
  obtain ⟨p₄, slacks, hrun₄, h₄, hequations⟩ := addSlacks_spec h₃.wellFormed hranges
  obtain ⟨p₅, hrun₅, h₅, hvalues⟩ := withNonnegativeValues_spec h₄.wellFormed hequations
  have hlater := (h₃.trans h₄).trans h₅
  have hcanonical : Canonicalized p p₅ rs := by
    refine ⟨h₅.wellFormed, ?_, fun b hb => ?_, hvalues, ?_, ?_, fun r hr i hi => ?_, ?_⟩
    · rw [hlater.objective_eq, h₂.objective_eq, hobjective₁]
    · rcases hlater.variableBounds_mem b hb with hnew | hold
      · exact hnew
      · exact h₂.bounds_eq b hold
    · rw [h₂.length_eq, hcount₁]
    · rw [← hcount₁]
      exact h₂.variableCount_le.trans hlater.variableCount_le
    · exact (h₂.paired_lt r hr i hi).2.trans_le hlater.variableCount_le
    · have hreform := (hreform₁.trans h₂.reformulates).trans hlater.reformulates
      rw [Function.id_comp, Function.comp_id, mul_one, mul_one] at hreform
      exact hreform
  refine ⟨{ p₅ with transformed := true }, rs, slacks, ranges, ?_, hcanonical.withTransformed, rfl⟩
  unfold normalize
  rw [hrun₁, ok_bind, hrun₂, ok_bind]
  dsimp only
  rw [hrun₃, ok_bind]
  dsimp only
  rw [hrun₄]
  dsimp only
  rw [hrun₅]
  rfl

theorem Canonicalized.isCanonical_eq {q : Problem ℚ} {rs : List (Recovery ℚ)}
    (h : Canonicalized p q rs) : q.isCanonical = true := by
  unfold isCanonical
  rw [Bool.and_eq_true, Bool.and_eq_true, List.all_eq_true, List.all_eq_true, h.objective_eq]
  refine ⟨⟨rfl, fun b hb => ?_⟩, fun b hb => ?_⟩
  · rw [h.variable_eq b hb]
    rfl
  · obtain ⟨value, rfl, hvalue⟩ := h.constraint_eq b hb
    simpa [Bounds.isEquality, hasNegativeValue] using hvalue

theorem toCanonical_spec (hp : p.WellFormed) (hfresh : p.transformed = false) :
    ∃ q rs, p.toCanonical.1 = q ∧ p.toCanonical.2.outcome = .ok rs ∧ Canonicalized p q rs ∧
      q.transformed = true := by
  obtain ⟨q, rs, slacks, ranges, hrun, hcanonical, htransformed⟩ := normalize_spec hp
  refine ⟨q, rs, ?_, ?_, hcanonical, htransformed⟩
  · unfold toCanonical
    rw [hfresh, hp.checkDimensions_eq, hrun]
    rfl
  · unfold toCanonical
    rw [hfresh, hp.checkDimensions_eq, hrun]
    simp only [Bool.false_eq_true, if_false, hcanonical.isCanonical_eq, require_true,
      Logged.outcome_bind, Logged.outcome_report, Logged.outcome_liftM_ok, Logged.outcome_pure,
      ok_bind]

theorem canonicalForm_spec (hp : p.WellFormed) (hfresh : p.transformed = false) :
    ∃ c, p.canonicalForm.outcome = .ok c ∧ Canonicalized p c.problem c.recoveries := by
  obtain ⟨q, rs, hproblem, hrun, hcanonical, -⟩ := toCanonical_spec hp hfresh
  refine ⟨⟨q, rs⟩, ?_, hcanonical⟩
  change (p.toCanonical.2 >>= fun recoveries =>
    (pure ⟨p.toCanonical.1, recoveries⟩ : Logged ℚ (CanonicalForm ℚ))).outcome = _
  rw [Logged.outcome_bind, hrun, hproblem]
  rfl

/-! ## Problems that can be built -/

section Reachable

variable {F : Type} [Scalar F]

/-- The calls that edit a problem. -/
inductive PublicEdit : {α : Type} → Edit (Problem F) α → Prop where
  | addVariables (n : ℕ) (bounds : Bounds F) : PublicEdit (addVariables n bounds)
  | addVariable (bounds : Bounds F) : PublicEdit (addVariable bounds)
  | addVariableGrid (n m : ℕ) (bounds : Bounds F) : PublicEdit (addVariableGrid n m bounds)
  | addConstraint (bounds : Bounds F) : PublicEdit (addConstraint bounds)
  | setCoefficient (i j : ℕ) (value : F) (accumulate : Bool) :
      PublicEdit (setCoefficient i j value accumulate)
  | setCost (j : ℕ) (value : F) (accumulate : Bool) : PublicEdit (setCost j value accumulate)
  | setObjective (objective : Objective) : PublicEdit (setObjective objective)
  | setNonNegativeDefault (value : Bool) : PublicEdit (setNonNegativeDefault value)

/-- The problems that can be built. -/
inductive Reachable : Problem F → Prop where
  | empty (objective : Objective) : Reachable (empty objective)
  | ofMatrix {objective : Objective} {nonNegative : Bool} {a : List (List F)} {b c : List F}
      {relations : List Relation} {p : Problem F}
      (h : ofMatrix objective nonNegative a b c relations = .ok p) : Reachable p
  | edit {α : Type} {e : Edit (Problem F) α} (he : PublicEdit e) {p : Problem F}
      (hp : Reachable p) : Reachable (stateAfter e p)
  | cleared {p : Problem F} (hp : Reachable p) : Reachable p.cleared
  | toCanonical {p : Problem F} (hp : Reachable p) : Reachable p.toCanonical.1

theorem PublicEdit.preserves {α : Type} {e : Edit (Problem F) α} (he : PublicEdit e) :
    Preserves WellFormed e := by
  cases he with
  | addVariables n bounds => exact preserves_addVariables n bounds
  | addVariable bounds => exact preserves_addVariable bounds
  | addVariableGrid n m bounds => exact preserves_addVariableGrid n m bounds
  | addConstraint bounds => exact preserves_addConstraint bounds
  | setCoefficient i j value accumulate => exact preserves_setCoefficient i j value accumulate
  | setCost j value accumulate => exact preserves_setCost j value accumulate
  | setObjective objective => exact preserves_setObjective objective
  | setNonNegativeDefault value => exact preserves_setNonNegativeDefault value

/-- All problems that can be built are well-formed. -/
theorem Reachable.wellFormed {p : Problem F} (hp : p.Reachable) : p.WellFormed := by
  induction hp with
  | empty objective => exact wellFormed_empty objective
  | ofMatrix h => exact wellFormed_ofMatrix h
  | edit he _ ih => exact he.preserves _ ih
  | cleared _ ih => exact wellFormed_cleared _
  | toCanonical _ ih => exact wellFormed_toCanonical ih

end Reachable

/-! ## A problem with variables of each kind -/

namespace Mixed

/-- A free variable, one that is bounded from above, one that is bounded on both sides, and a range
constraint that is still empty. -/
def uncoupled : Problem ℚ where
  objective := .maximize
  cost := [2, 0, 0]
  variableBounds := [.free, ⟨none, some 3⟩, ⟨some 1, some 4⟩]
  constraintBounds := [⟨some 1, some 5⟩]

/-- The free variable and the next one have the sum that is constrained. -/
def coupled : Problem ℚ :=
  { uncoupled with
    entries := [⟨0, 0, 1⟩, ⟨0, 1, 1⟩]
    index := (uncoupled.index.insert (0, 0) 0).insert (0, 1) 1 }

theorem reachable_uncoupled : uncoupled.Reachable := by
  have hvariables : Reachable (F := ℚ) (stateAfter (addVariable ⟨some 1, some 4⟩)
      (stateAfter (addVariable ⟨none, some 3⟩)
        (stateAfter (addVariable .free) (empty .maximize)))) :=
    .edit (.addVariable _) (.edit (.addVariable _) (.edit (.addVariable _) (.empty .maximize)))
  exact .edit (.setCost 0 2 false) (.edit (.addConstraint ⟨some 1, some 5⟩) hvariables)

theorem reachable_coupled : coupled.Reachable := by
  have hfirst := stateAfter_setCoefficient reachable_uncoupled.wellFormed.indexed (i := 0) (j := 0)
    (by decide) (by decide) (by decide) 1 false
  have hreachable := Reachable.edit (.setCoefficient 0 0 1 false) reachable_uncoupled
  rw [hfirst] at hreachable
  have hsecond := stateAfter_setCoefficient hreachable.wellFormed.indexed (i := 0) (j := 1)
    (by decide) (by decide) (by decide) 1 false
  have hreachable' := Reachable.edit (.setCoefficient 0 1 1 false) hreachable
  rw [hsecond] at hreachable'
  exact hreachable'

end Mixed

end Problem

end LinearOpt

import LinearOpt.Proofs.Problem.Cells

/-!
# Calls that fail

A call on a problem that fails leaves the problem as it was.

* `NeverFails` is about edits that check nothing.  The others check their request before they change
  anything, so `PublicEdit.eq_of_error` holds of all edits, over any number type.
* `PublicEdit.refused_of_error` says that over the rationals it is only these checks that fail.
* `toCanonical` rewrites the problem pass by pass, and a constraint without bounds would stop it
  half-way.  No problem that can be built has such a constraint, and no pass makes one, so
  `passesEnd` follows all passes to the end.
* `failures_change_nothing` is about all calls on a problem.
-/

namespace LinearOpt

/-! ## Edits that check nothing -/

section NeverFails

variable {σ α β : Type}

def NeverFails (e : Edit σ α) : Prop := ∀ s, ∃ a next, e s = .ok a next

namespace NeverFails

theorem pure (a : α) : NeverFails (Pure.pure a : Edit σ α) := fun s => ⟨a, s, rfl⟩

theorem modifyGet (f : σ → α × σ) : NeverFails (MonadStateOf.modifyGet f : Edit σ α) :=
  fun s => ⟨(f s).1, (f s).2, rfl⟩

theorem bind {x : Edit σ α} {f : α → Edit σ β} (hx : NeverFails x) (hf : ∀ a, NeverFails (f a)) :
    NeverFails (x >>= f) := by
  intro s
  obtain ⟨a, mid, hrun⟩ := hx s
  rw [edit_bind_of_ok hrun]
  exact hf a mid

theorem mapM {f : β → Edit σ α} (h : ∀ x, NeverFails (f x)) (xs : List β) :
    NeverFails (xs.mapM f) := by
  induction xs with
  | nil => exact pure []
  | cons x xs ih =>
    rw [List.mapM_cons]
    exact (h x).bind fun _ => ih.bind fun _ => pure _

theorem ne_error {e : Edit σ α} (h : NeverFails e) (s : σ) (f : Failure) (next : σ) :
    e s ≠ .error f next := by
  obtain ⟨a, done, hrun⟩ := h s
  rw [hrun]
  nofun

end NeverFails

end NeverFails

namespace Problem

/-! ## Edits that check their request -/

section Edits

variable {F : Type} [Scalar F] {α : Type} {p q : Problem F} {e : Edit (Problem F) α} {f : Failure}

theorem neverFails_addVariables (n : ℕ) (bounds : Bounds F) :
    NeverFails (addVariables n bounds) := .modifyGet _

theorem neverFails_addVariable (bounds : Bounds F) : NeverFails (addVariable bounds) := by
  refine .bind (fun p => ⟨p, p, rfl⟩) fun p => ?_
  exact (NeverFails.bind (neverFails_addVariables 1 bounds) fun _ => .pure _).bind fun _ => .pure _

theorem neverFails_addVariableGrid (n m : ℕ) (bounds : Bounds F) :
    NeverFails (addVariableGrid n m bounds) :=
  .mapM (fun _ => neverFails_addVariables m bounds) _

/-- The three calls that can fail, or none. -/
theorem PublicEdit.cases_of_error (he : PublicEdit e) (h : e p = .error f q) :
    (∃ bounds, Problem.addConstraint bounds p = .error f q) ∨
      (∃ i j value accumulate, Problem.setCoefficient i j value accumulate p = .error f q) ∨
      ∃ j value accumulate, Problem.setCost j value accumulate p = .error f q := by
  cases he with
  | addVariables n bounds => exact absurd h ((neverFails_addVariables n bounds).ne_error p f q)
  | addVariable bounds => exact absurd h ((neverFails_addVariable bounds).ne_error p f q)
  | addVariableGrid n m bounds =>
    exact absurd h ((neverFails_addVariableGrid n m bounds).ne_error p f q)
  | addConstraint bounds => exact Or.inl ⟨bounds, h⟩
  | setCoefficient i j value accumulate => exact Or.inr (Or.inl ⟨i, j, value, accumulate, h⟩)
  | setCost j value accumulate => exact Or.inr (Or.inr ⟨j, value, accumulate, h⟩)
  | setObjective objective => exact absurd h ((NeverFails.modifyGet _).ne_error p f q)
  | setNonNegativeDefault value => exact absurd h ((NeverFails.modifyGet _).ne_error p f q)

theorem addConstraint_error {bounds : Bounds F} (h : addConstraint bounds p = .error f q) :
    f = .refused .invalidConstraint ∧ q = p := by
  rcases addConstraint_eq bounds p with ⟨-, hrun⟩ | ⟨-, hrun⟩
  · rw [hrun] at h
    cases h
    exact ⟨rfl, rfl⟩
  · rw [hrun] at h
    cases h

/-- An edit that fails leaves the problem as it was. -/
theorem PublicEdit.eq_of_error (he : PublicEdit e) (h : e p = .error f q) : q = p := by
  rcases he.cases_of_error h with ⟨bounds, h⟩ | ⟨i, j, value, accumulate, h⟩ |
    ⟨j, value, accumulate, h⟩
  · exact (addConstraint_error h).2
  · exact setCoefficient_error h
  · rw [setCost_eq] at h
    exact atomically_error h

end Edits

/-! ## Rationals -/

variable {p q : Problem ℚ}

theorem setCoefficient_refused (hp : p.WellFormed) {i j : ℕ} {value : ℚ} {accumulate : Bool}
    {f : Failure} (h : setCoefficient i j value accumulate p = .error f q) :
    ∃ error, f = .refused error := by
  by_cases hi : i < p.constraintCount
  · by_cases hj : j < p.variableCount
    · obtain ⟨next, hrun, -⟩ := exists_setCoefficient hp.indexed ⟨i, j, value, accumulate⟩ hi hj
      dsimp only at hrun
      rw [hrun] at h
      cases h
    · rw [setCoefficient_eq, atomically, checkConstraint_eq hi, checkVariable, if_neg hj] at h
      cases h
      exact ⟨_, rfl⟩
  · rw [setCoefficient_eq, atomically, checkConstraint, if_neg hi] at h
    cases h
    exact ⟨_, rfl⟩

theorem setCost_refused {j : ℕ} {value : ℚ} {accumulate : Bool} {f : Failure}
    (h : setCost j value accumulate p = .error f q) : ∃ error, f = .refused error := by
  by_cases hj : j < p.variableCount
  · have hcost : j < p.cost.length := hj
    obtain ⟨next, hmerged⟩ : ∃ next, merged accumulate p.cost[j] value = .ok next := by
      cases accumulate <;> exact ⟨_, rfl⟩
    rw [setCost_eq, atomically, checkVariable_eq hj,
      update_eq_ok (List.getElem?_eq_getElem hcost) hmerged] at h
    cases h
  · rw [setCost_eq, atomically, checkVariable, if_neg hj] at h
    cases h
    exact ⟨_, rfl⟩

/-- Nothing but a check fails. -/
theorem PublicEdit.refused_of_error {α : Type} {e : Edit (Problem ℚ) α} {f : Failure}
    (he : PublicEdit e) (hp : p.WellFormed) (h : e p = .error f q) :
    ∃ error, f = .refused error := by
  rcases he.cases_of_error h with ⟨bounds, h⟩ | ⟨i, j, value, accumulate, h⟩ |
    ⟨j, value, accumulate, h⟩
  · exact ⟨_, (addConstraint_error h).1⟩
  · exact setCoefficient_refused hp h
  · exact setCost_refused h

/-! ## The way to canonical form -/

/-- The passes to canonical form end one after the other, also that which refuses constraints without
bounds. -/
def PassesEnd (p : Problem ℚ) : Prop :=
  ∃ p₁ p₂ p₃ p₄ p₅ recoveries ranges slacks, p.minimized = .ok p₁ ∧
    p₁.normalizeVariables = .ok (p₂, recoveries) ∧ p₂.splitRanges = .ok (p₃, ranges) ∧
    p₃.addSlacks = (p₄, .ok slacks) ∧ p₄.withNonnegativeValues = .ok p₅

theorem passesEnd (hp : p.WellFormed) : p.PassesEnd := by
  obtain ⟨p₁, hrun₁, hwf₁, -⟩ := minimized_spec hp
  obtain ⟨p₂, recoveries, hrun₂, h₂⟩ := normalizeVariables_spec hwf₁
  obtain ⟨p₃, ranges, hrun₃, h₃, hranges⟩ := splitRanges_spec h₂.wellFormed
  obtain ⟨p₄, slacks, hrun₄, h₄, hequations⟩ := addSlacks_spec h₃.wellFormed hranges
  obtain ⟨p₅, hrun₅, -⟩ := withNonnegativeValues_spec h₄.wellFormed hequations
  exact ⟨p₁, p₂, p₃, p₄, p₅, recoveries, ranges, slacks, hrun₁, hrun₂, hrun₃, hrun₄, hrun₅⟩

theorem toCanonical_of_transformed (h : p.transformed = true) :
    p.toCanonical = (p, .fail (.refused .alreadyTransformed)) := if_pos h

theorem toCanonical_error_iff (hp : p.WellFormed) {f : Failure} :
    p.toCanonical.2.outcome = .error f ↔
      p.transformed = true ∧ f = .refused .alreadyTransformed := by
  cases htransformed : p.transformed with
  | true =>
    rw [toCanonical_of_transformed htransformed]
    constructor
    · rintro ⟨⟩
      exact ⟨rfl, rfl⟩
    · rintro ⟨-, rfl⟩
      rfl
  | false =>
    obtain ⟨q, rs, -, hrun, -⟩ := toCanonical_spec hp htransformed
    rw [hrun]
    exact iff_of_false nofun nofun

theorem transformed_toCanonical (hp : p.WellFormed) : p.toCanonical.1.transformed = true := by
  cases htransformed : p.transformed with
  | true => rw [toCanonical_of_transformed htransformed, htransformed]
  | false =>
    obtain ⟨q, rs, hq, -, -, hdone⟩ := toCanonical_spec hp htransformed
    rw [hq, hdone]

/-- A call that fails leaves the problem as it was.  The way to canonical form fails only where it
was gone before, and then at once: its dimensions are right, and all its passes end. -/
structure KeptByFailures (p : Problem ℚ) : Prop where
  edit_error : ∀ {α : Type} {e : Edit (Problem ℚ) α} {f : Failure} {q : Problem ℚ},
    PublicEdit e → e p = .error f q → q = p ∧ ∃ error, f = .refused error
  toCanonical_error : ∀ f, p.toCanonical.2.outcome = .error f → p.toCanonical.1 = p
  fails_iff : ∀ f, p.toCanonical.2.outcome = .error f ↔
    p.transformed = true ∧ f = .refused .alreadyTransformed
  checkDimensions_eq : p.checkDimensions = .ok ()
  passes_end : p.PassesEnd

/-- No call on a problem that can be built fails half-way. -/
theorem failures_change_nothing (hp : p.Reachable) : p.KeptByFailures := by
  have hwf := hp.wellFormed
  refine
    { edit_error := fun he h => ⟨he.eq_of_error h, he.refused_of_error hwf h⟩
      toCanonical_error := fun f h => ?_
      fails_iff := fun f => toCanonical_error_iff hwf
      checkDimensions_eq := hwf.checkDimensions_eq
      passes_end := passesEnd hwf }
  obtain ⟨htransformed, -⟩ := (toCanonical_error_iff hwf).mp h
  rw [toCanonical_of_transformed htransformed]

/-- The constraint that is asked for is not there, and neither are bounds for another one. -/
theorem failures_change_nothing_coupled :
    Mixed.coupled.Reachable ∧ Mixed.coupled.KeptByFailures ∧
      setCoefficient 1 0 5 false Mixed.coupled =
        .error (.refused (.dimensionMismatch (.noConstraint 1 1))) Mixed.coupled ∧
      addConstraint .free Mixed.coupled = .error (.refused .invalidConstraint) Mixed.coupled ∧
      Mixed.coupled.toCanonical.1.Reachable ∧ Mixed.coupled.toCanonical.1.KeptByFailures ∧
      Mixed.coupled.toCanonical.1.toCanonical.2.outcome =
        .error (.refused .alreadyTransformed) := by
  have hagain := failures_change_nothing (.toCanonical Mixed.reachable_coupled)
  have htransformed := transformed_toCanonical Mixed.reachable_coupled.wellFormed
  exact ⟨Mixed.reachable_coupled, failures_change_nothing Mixed.reachable_coupled, rfl, rfl,
    .toCanonical Mixed.reachable_coupled, hagain, (hagain.fails_iff _).mpr ⟨htransformed, rfl⟩⟩

end Problem

end LinearOpt

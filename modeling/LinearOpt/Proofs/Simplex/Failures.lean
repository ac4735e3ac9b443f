import LinearOpt.Proofs.Simplex.TwoPhase

/-!
# How the two phase method fails

The method checks a lot on its way: the canonical form, the sizes of the first tableau, the lengths
in every product, the basis at the start of every iteration, the column and the entry of every
pivot. A check that does not hold, a position outside a list and a division by zero are faults, and
`twoPhase_fails_orderly` says that none of them occurs.  What is left are two refusals: of options
that are not supported, and of a problem that was transformed before.

The refusals come first and do not depend on the number type: `outcome_of_method`,
`outcome_of_presolve` and `outcome_of_transformed`.
-/

namespace LinearOpt

namespace Problem

/-! ## Refusals -/

section Refusals

variable {F : Type} [Scalar F] {p : Problem F} {configuration : Configuration} (fuel : ℕ)

theorem outcome_of_method (h : configuration.method ≠ .primalSimplex) :
    (twoPhase fuel p configuration).outcome =
      .error (.refused (.unsupported (.method configuration.method))) := by
  unfold twoPhase
  rw [if_pos h]
  rfl

theorem outcome_of_presolve (hmethod : configuration.method = .primalSimplex)
    (h : configuration.presolve = true) :
    (twoPhase fuel p configuration).outcome = .error (.refused (.unsupported .presolve)) := by
  unfold twoPhase
  rw [if_neg (not_not_intro hmethod), h]
  rfl

/-- A run that returns something was called with options that are supported. -/
theorem supported_of_outcome {outcome : Outcome (List F)}
    (h : (twoPhase fuel p configuration).outcome = .ok outcome) :
    configuration.method = .primalSimplex ∧ configuration.presolve = false := by
  by_cases hmethod : configuration.method = .primalSimplex
  · cases hpresolve : configuration.presolve with
    | true =>
      rw [outcome_of_presolve fuel hmethod hpresolve] at h
      cases h
    | false => exact ⟨hmethod, rfl⟩
  · rw [outcome_of_method fuel hmethod] at h
    cases h

theorem outcome_of_transformed (hmethod : configuration.method = .primalSimplex)
    (hpresolve : configuration.presolve = false) (h : p.transformed = true) :
    (twoPhase fuel p configuration).outcome = .error (.refused .alreadyTransformed) := by
  have hcanonical : p.canonicalForm.outcome = .error (.refused .alreadyTransformed) := by
    unfold canonicalForm toCanonical
    rw [h]
    rfl
  unfold twoPhase
  rw [if_neg (not_not_intro hmethod), hpresolve]
  simp only [Bool.false_eq_true, if_false, Logged.outcome_bind, hcanonical]
  rfl

end Refusals

/-! ## The ways to fail -/

/-- The outcome of a run on `p` is no fault, and no refusal but the two that are called for: of
options that are not supported, and else of a problem that was transformed.  If it ran out of fuel,
it was still pivoting. -/
structure FailsOrderly (p : Problem ℚ) (configuration : Configuration) (fuel : ℕ)
    (outcome : Except Failure (Outcome (List ℚ))) : Prop where
  no_fault : ∀ fault, outcome ≠ .error (.fault fault)
  unsupported_iff : (∃ what, outcome = .error (.refused (.unsupported what))) ↔
    configuration.method ≠ .primalSimplex ∨ configuration.presolve = true
  alreadyTransformed_iff : outcome = .error (.refused .alreadyTransformed) ↔
    configuration.method = .primalSimplex ∧ configuration.presolve = false ∧
      p.transformed = true
  refused_cases : ∀ e, outcome = .error (.refused e) →
    (∃ what, e = .unsupported what) ∨ e = .alreadyTransformed
  outOfFuel : outcome = .error .outOfFuel →
    ∃ c, p.canonicalForm.outcome = .ok c ∧ c.KeepsPivoting configuration.verbosity fuel

variable {p : Problem ℚ} {configuration : Configuration} {fuel : ℕ}

theorem failsOrderly_unsupported {what : Unsupported}
    (h : configuration.method ≠ .primalSimplex ∨ configuration.presolve = true) :
    p.FailsOrderly configuration fuel (.error (.refused (.unsupported what))) where
  no_fault _ := by simp
  unsupported_iff := ⟨fun _ => h, fun _ => ⟨what, rfl⟩⟩
  alreadyTransformed_iff := by
    refine ⟨fun heq => by simp at heq, ?_⟩
    rintro ⟨hmethod, hpresolve, -⟩
    rcases h with hne | htrue
    · exact absurd hmethod hne
    · rw [hpresolve] at htrue
      cases htrue
  refused_cases e he := by
    cases he
    exact Or.inl ⟨what, rfl⟩
  outOfFuel h := by simp at h

theorem failsOrderly_alreadyTransformed (hmethod : configuration.method = .primalSimplex)
    (hpresolve : configuration.presolve = false) (h : p.transformed = true) :
    p.FailsOrderly configuration fuel (.error (.refused .alreadyTransformed)) where
  no_fault _ := by simp
  unsupported_iff := by simp [hmethod, hpresolve]
  alreadyTransformed_iff := by simp [hmethod, hpresolve, h]
  refused_cases e he := by
    cases he
    exact Or.inr rfl
  outOfFuel h := by simp at h

/-- With the supported options and a problem that is not transformed there is nothing to refuse. -/
theorem failsOrderly_of_not_refused (hmethod : configuration.method = .primalSimplex)
    (hpresolve : configuration.presolve = false) (hfresh : p.transformed = false)
    {outcome : Except Failure (Outcome (List ℚ))}
    (h : (outcome = .error .outOfFuel ∧
        ∃ c, p.canonicalForm.outcome = .ok c ∧ c.KeepsPivoting configuration.verbosity fuel) ∨
      ∃ answer, outcome = .ok answer) : p.FailsOrderly configuration fuel outcome := by
  have hfault : ∀ fault, outcome ≠ .error (.fault fault) := by
    rintro fault rfl
    rcases h with ⟨hfuel, -⟩ | ⟨answer, hanswer⟩
    · cases hfuel
    · cases hanswer
  have hrefused : ∀ e, outcome ≠ .error (.refused e) := by
    rintro e rfl
    rcases h with ⟨hfuel, -⟩ | ⟨answer, hanswer⟩
    · cases hfuel
    · cases hanswer
  exact
    { no_fault := hfault
      unsupported_iff := by simp [hmethod, hpresolve, hrefused]
      alreadyTransformed_iff := by simp [hfresh, hrefused]
      refused_cases := fun e he => absurd he (hrefused e)
      outOfFuel := by
        rintro rfl
        rcases h with ⟨-, hkeeps⟩ | ⟨answer, hanswer⟩
        · exact hkeeps
        · cases hanswer }

theorem WellFormed.failsOrderly (hp : p.WellFormed) (configuration : Configuration) (fuel : ℕ) :
    p.FailsOrderly configuration fuel (twoPhase fuel p configuration).outcome := by
  by_cases hmethod : configuration.method = .primalSimplex
  · cases hpresolve : configuration.presolve with
    | true =>
      rw [outcome_of_presolve fuel hmethod hpresolve]
      exact failsOrderly_unsupported (Or.inr hpresolve)
    | false =>
      cases htransformed : p.transformed with
      | true =>
        rw [outcome_of_transformed fuel hmethod hpresolve htransformed]
        exact failsOrderly_alreadyTransformed hmethod hpresolve htransformed
      | false =>
        refine failsOrderly_of_not_refused hmethod hpresolve htransformed ?_
        rcases hp.twoPhase_cases htransformed hmethod hpresolve fuel with
          hfuel | ⟨answer, hanswer, -⟩
        · exact Or.inl hfuel
        · exact Or.inr ⟨answer, hanswer⟩
  · rw [outcome_of_method fuel hmethod]
    exact failsOrderly_unsupported (Or.inl hmethod)

/-- On every problem that can be built, with every configuration and for any number of steps, no
check of the method fails, and it refuses only what it has to. -/
theorem twoPhase_fails_orderly (hp : p.Reachable) (configuration : Configuration) (fuel : ℕ) :
    p.FailsOrderly configuration fuel (twoPhase fuel p configuration).outcome :=
  hp.wellFormed.failsOrderly configuration fuel

/-- A problem that goes through all passes, and what they made of it. -/
theorem twoPhase_fails_orderly_mixed :
    Mixed.coupled.Reachable ∧
      Mixed.coupled.FailsOrderly {} 10 (twoPhase 10 Mixed.coupled {}).outcome ∧
      Mixed.coupled.toCanonical.1.Reachable ∧
      Mixed.coupled.toCanonical.1.FailsOrderly {} 10
        (twoPhase 10 Mixed.coupled.toCanonical.1 {}).outcome :=
  ⟨Mixed.reachable_coupled, twoPhase_fails_orderly Mixed.reachable_coupled {} 10,
    .toCanonical Mixed.reachable_coupled,
    twoPhase_fails_orderly (.toCanonical Mixed.reachable_coupled) {} 10⟩

/-! ## What is returned -/

/-- What the method returns is true of the problem. -/
theorem WellFormed.answers_of_outcome (hp : p.WellFormed) {outcome : Outcome (List ℚ)}
    (h : (twoPhase fuel p configuration).outcome = .ok outcome) : p.Answers outcome := by
  obtain ⟨hmethod, hpresolve⟩ := supported_of_outcome fuel h
  have hfresh : p.transformed = false := by
    have htransformed := (hp.failsOrderly configuration fuel).alreadyTransformed_iff
    rw [h] at htransformed
    simpa [hmethod, hpresolve] using htransformed
  rcases hp.twoPhase_cases hfresh hmethod hpresolve fuel with
    ⟨hfuel, -⟩ | ⟨answer, hanswer, hanswers⟩
  · rw [hfuel] at h
    cases h
  · rw [hanswer] at h
    cases h
    exact hanswers

end Problem

end LinearOpt

import LinearOpt.Proofs.Refinement.Canonical
import LinearOpt.Proofs.Refinement.Tableau
import LinearOpt.Proofs.Simplex.Exchanges

/-!
# Solving an image

If `v` refines a number type, the two phase method agrees with itself on the image of a problem
(`Problem.twoPhase_agrees`), and where it returns, it makes the same exchanges there
(`Problem.Makes.map`).  The options and the fuel are the same in both runs.
-/

namespace LinearOpt

variable {F G : Type} [Scalar F] [Scalar G] {v : F → G} (hv : Refines v)

namespace Tableau

/-! ## Pivoting -/

omit [Scalar F] [Scalar G] in
/-- What is reported can overflow, and is forgotten otherwise. -/
theorem detail_agrees {α β : Type} {f : α → β} {x : Except Fault α} {y : Except Fault β}
    (h : Agrees f x y) (verbosity : Verbosity) (event : α → Event F) (event' : β → Event G) :
    Agrees id (detail verbosity do return event (← x)).outcome
      (detail verbosity do return event' (← y)).outcome := by
  unfold detail
  split
  · rcases h with rfl | rfl
    · exact Or.inl rfl
    · cases x with
      | ok a => exact .ok rfl
      | error e => exact .error _
  · exact .ok rfl

section Runs

include hv

theorem reportEnd_agrees (verbosity : Verbosity) (t : Tableau F) (termination : Termination)
    (pivots : ℕ) : Agrees id (reportEnd verbosity t termination pivots).outcome
      (reportEnd verbosity (t.map v) termination pivots).outcome :=
  detail_agrees (objectiveValue_agrees hv t) verbosity _ _

theorem iterate_agrees (verbosity : Verbosity) (fuel pivots : ℕ) (t : Tableau F) :
    Agrees (Prod.map id (Tableau.map v)) (t.iterate verbosity fuel pivots).outcome
      ((t.map v).iterate verbosity fuel pivots).outcome := by
  induction fuel generalizing pivots t with
  | zero => exact .error _
  | succ fuel ih =>
    unfold iterate
    -- both runs decide alike, so one case for each decision of the first run
    refine .logged_bind (.logged_lift (.require (map_isFeasibleBasis hv t))) fun _ => ?_
    refine .logged_bind (.logged_lift (nextStep_agrees hv t)) fun step => ?_
    cases step with
    | optimal => exact .logged_bind (reportEnd_agrees hv verbosity t _ pivots) fun _ => .ok rfl
    | unbounded j cost =>
      exact .logged_bind (reportEnd_agrees hv verbosity t _ pivots) fun _ => .ok rfl
    | pivot j cost r column =>
      refine .logged_bind (detail_agrees (basicColumn_agrees v t r) verbosity _ _) fun _ => ?_
      refine .logged_bind (.logged_lift (pivot_agrees hv t j r column)) fun next => ?_
      exact ih (pivots + 1) next

/-! ## The phases -/

theorem firstNonzero_agrees (t : Tableau F) (r : ℕ) (js : List ℕ) :
    Agrees id (t.firstNonzero r js) ((t.map v).firstNonzero r js) := by
  induction js with
  | nil => exact .ok rfl
  | cons j js ih =>
    refine (Agrees.refl (t.isBasic j)).bind fun isBasic => ?_
    dsimp only [id]
    split
    · exact ih
    · refine (generateElement_agrees hv t r j).bind fun x => ?_
      rw [hv.nonzero_eq]
      split
      · exact .ok rfl
      · exact ih

/-- What is found among the real columns is found among those of the image. -/
theorem firstNonzero_map {t : Tableau F} {r : ℕ} {found : Option ℕ}
    (h : t.firstNonzero r (List.range t.realColumnCount) = .ok found) :
    (t.map v).firstNonzero r (List.range (t.map v).realColumnCount) = .ok found := by
  rw [map_realColumnCount]
  exact (firstNonzero_agrees hv t r _).eq_ok h

theorem driveOut_agrees (rs : List ℕ) (t : Tableau F) :
    Agrees (Prod.map (Tableau.map v) id) (t.driveOut rs) ((t.map v).driveOut rs) := by
  induction rs generalizing t with
  | nil => exact .ok rfl
  | cons r rs ih =>
    unfold driveOut
    rw [map_realColumnCount]
    refine (firstNonzero_agrees hv t r _).bind fun found => ?_
    cases found with
    | some j =>
      refine (generateColumn_agrees hv t j).bind fun column => ?_
      exact (pivot_agrees hv t j r column).bind fun next => ih next
    | none => exact (ih t).map fun rest => rfl

theorem phaseOne_agrees (verbosity : Verbosity) (fuel : ℕ) (t : Tableau F) :
    Agrees (Prod.map id (Tableau.map v)) (t.phaseOne verbosity fuel).outcome
      ((t.map v).phaseOne verbosity fuel).outcome := by
  unfold phaseOne
  refine .logged_bind (iterate_agrees hv verbosity fuel 0 t) fun run => ?_
  rcases run with ⟨_ | _, last⟩
  · dsimp only [Prod.map, id]
    rw [map_hasPositiveArtificial hv, map_artificialRows]
    split
    · exact .ok rfl
    · refine .logged_bind (.logged_lift (driveOut_agrees hv _ last)) fun driven => ?_
      exact .logged_bind (.logged_lift (.require rfl)) fun _ => .ok rfl
  · exact .ok rfl

theorem phaseTwo_agrees (verbosity : Verbosity) (fuel : ℕ) (t : Tableau F) :
    Agrees (Prod.map (Outcome.map (List.map v)) (Tableau.map v))
      (t.phaseTwo verbosity fuel).outcome ((t.map v).phaseTwo verbosity fuel).outcome := by
  unfold phaseTwo
  refine .logged_bind (iterate_agrees hv verbosity fuel 0 t) fun run => ?_
  rcases run with ⟨_ | _, last⟩
  · dsimp only [Prod.map, id]
    rw [map_basicSolution hv]
    exact .ok rfl
  · exact .ok rfl

end Runs

end Tableau

/-! ## Both phases -/

namespace CanonicalForm

section Runs

include hv

theorem matrix_agrees (c : CanonicalForm F) :
    Agrees (List.map (List.map v)) c.matrix (c.map v).matrix := by
  have hzeros : (List.replicate c.problem.constraintCount
      (List.replicate c.problem.variableCount Scalar.zero)).map (List.map v) =
      List.replicate (c.map v).problem.constraintCount
        (List.replicate (c.map v).problem.variableCount Scalar.zero) := by
    simp [CanonicalForm.map, hv.zero_eq]
  unfold matrix
  rw [← hzeros]
  refine .foldlM rfl (fun rows e => ?_) _
  have hvalue : Agrees v (.ok e.value : Except Fault F) (.ok (v e.value)) := .ok rfl
  exact .update (fun row => .update (fun _ => hvalue) row e.column) rows e.row

theorem tableau_agrees (c : CanonicalForm F) :
    Agrees (Tableau.map v) c.tableau (c.map v).tableau := by
  unfold tableau
  rw [map_values hv]
  exact (matrix_agrees hv c).bind fun matrix =>
    Tableau.start_agrees hv matrix c.values c.problem.cost

theorem solve_agrees (verbosity : Verbosity) (fuel : ℕ) (c : CanonicalForm F) :
    Agrees (Outcome.map (List.map v)) (c.solve verbosity fuel).outcome
      ((c.map v).solve verbosity fuel).outcome := by
  unfold solve
  refine .logged_bind (.logged_lift (tableau_agrees hv c)) fun first => ?_
  refine .logged_bind (Tableau.phaseOne_agrees hv verbosity fuel first) fun run => ?_
  rcases run with ⟨redundant | _ | _, last⟩
  · dsimp only [Prod.map, id]
    have hdetail := Tableau.detail_agrees (F := F) (G := G) (.refl (.ok ())) verbosity
      (fun _ => .feasibleBasis redundant.length) (fun _ => .feasibleBasis redundant.length)
    refine .logged_bind hdetail fun _ => ?_
    refine .logged_bind (.logged_lift (Tableau.startPhaseTwo_agrees hv last)) fun second => ?_
    exact .logged_bind (Tableau.phaseTwo_agrees hv verbosity fuel second) fun run => .ok rfl
  · exact .ok rfl
  · dsimp only [Prod.map, id]
    split
    · exact .ok rfl
    · exact .ok rfl

end Runs

end CanonicalForm

namespace Problem

/-! ## The whole method -/

theorem mapM_agrees {α α' β β' : Type} {f : α → α'} {g : β → β'} {s : α → Except Failure β}
    {s' : α' → Except Failure β'} (outcome : Outcome α) (h : ∀ x, Agrees g (s x) (s' (f x))) :
    Agrees (Outcome.map g) (outcome.mapM s) ((outcome.map f).mapM s') := by
  cases outcome with
  | optimum x => exact (h x).map fun _ => rfl
  | infeasible => exact .ok rfl
  | unbounded => exact .ok rfl
  | infeasibleOrUnbounded => exact .ok rfl
  | error => exact .ok rfl

include hv

/-- The method overflows on a problem, or it ends as it does on the image. -/
theorem twoPhase_agrees {configuration : Configuration}
    (hmethod : configuration.method = .primalSimplex) (hpresolve : configuration.presolve = false)
    (fuel : ℕ) (p : Problem F) :
    Agrees (Outcome.map (List.map v)) (twoPhase fuel p configuration).outcome
      (twoPhase fuel (p.map v) configuration).outcome := by
  rw [twoPhase_outcome hmethod hpresolve, twoPhase_outcome hmethod hpresolve]
  refine (canonicalForm_agrees hv p).bind fun c => ?_
  refine (CanonicalForm.solve_agrees hv _ fuel c).bind fun outcome => ?_
  exact mapM_agrees outcome fun x => c.reconstruct_agrees hv (.optimum x)

end Problem

/-! ## The exchanges -/

namespace Tableau

include hv

theorem Iterations.map {t last : Tableau F} {es : List (ℕ × ℕ)} (h : t.Iterations es last) :
    (t.map v).Iterations es (last.map v) := by
  induction h with
  | refl t => exact .refl _
  | step hnext _ ih =>
    exact .step ⟨(nextStep_agrees hv _).eq_ok hnext.nextStep_eq,
      (pivot_agrees hv _ _ _ _).eq_ok hnext.pivot_eq⟩ ih

theorem Ends.map {t : Tableau F} {termination : Termination} (h : t.Ends termination) :
    (t.map v).Ends termination := by
  cases h with
  | optimal hstep => exact .optimal ((nextStep_agrees hv t).eq_ok hstep)
  | unbounded hstep => exact .unbounded ((nextStep_agrees hv t).eq_ok hstep)

theorem DrivesOut.map {t last : Tableau F} {rs : List ℕ} {es : List (ℕ × ℕ)}
    (h : t.DrivesOut rs es last) : (t.map v).DrivesOut rs es (last.map v) := by
  induction h with
  | nil t => exact .nil _
  | exchange hj hcolumn hpivot _ ih =>
    exact .exchange (firstNonzero_map hv hj) ((generateColumn_agrees hv _ _).eq_ok hcolumn)
      ((pivot_agrees hv _ _ _ _).eq_ok hpivot) ih
  | keep hj _ ih => exact .keep (firstNonzero_map hv hj) ih

end Tableau

namespace CanonicalForm

variable {c : CanonicalForm F} {es : List (ℕ × ℕ)}

include hv

theorem EndsPhaseOne.map {last : Tableau F} {termination : Termination}
    (h : c.EndsPhaseOne es last termination) :
    (c.map v).EndsPhaseOne es (last.map v) termination := by
  rcases h with ⟨hfirst, hone, hend⟩
  exact ⟨(tableau_agrees hv c).eq_ok hfirst, hone.map hv, hend.map hv⟩

theorem ReachesPhaseTwo.map {second : Tableau F} (h : c.ReachesPhaseTwo es second) :
    (c.map v).ReachesPhaseTwo es (second.map v) := by
  rcases h with ⟨hone, hzero, hdriven, hsecond⟩
  have hdriven' := hdriven.map hv
  rw [← Tableau.map_artificialRows v] at hdriven'
  exact ⟨hone.map hv, (Tableau.map_hasPositiveArtificial hv _).trans hzero, hdriven',
    (Tableau.startPhaseTwo_agrees hv _).eq_ok hsecond⟩

theorem Makes.map {outcome : Outcome (List F)} (h : c.Makes es outcome) :
    (c.map v).Makes es (outcome.map (List.map v)) := by
  cases h with
  | failed hone => exact .failed (hone.map hv)
  | infeasible hone hpositive =>
    exact .infeasible (hone.map hv) ((Tableau.map_hasPositiveArtificial hv _).trans hpositive)
  | optimum hsecond htwo hend =>
    rw [Outcome.map, ← Tableau.map_basicSolution hv]
    exact .optimum (hsecond.map hv) (htwo.map hv) (hend.map hv)
  | unbounded hsecond htwo hend => exact .unbounded (hsecond.map hv) (htwo.map hv) (hend.map hv)

end CanonicalForm

/-- The exchanges made on a problem are those made on its image. -/
theorem Problem.Makes.map (hv : Refines v) {p : Problem F} {es : List (ℕ × ℕ)}
    {outcome : Outcome (List F)} (h : p.Makes es outcome) :
    (p.map v).Makes es (outcome.map (List.map v)) := by
  rcases h with ⟨hcanonical, hmakes, hback⟩
  refine ⟨(canonicalForm_agrees hv p).eq_ok hcanonical, hmakes.map hv, Agrees.eq_ok ?_ hback⟩
  exact mapM_agrees _ fun x => CanonicalForm.reconstruct_agrees hv _ (.optimum x)

end LinearOpt

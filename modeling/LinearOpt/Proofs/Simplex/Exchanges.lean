import LinearOpt.Proofs.Simplex.TwoPhase

/-!
# The exchanges that a run makes

A run of the method as a sequence of exchanges, without fuel and without events.  Nothing here
depends on the number type.

* `Tableau.Iterates` is one iteration, and `Tableau.Iterations` is any number of them, with the
  column and the row of each exchange.  `Tableau.DrivesOut` is the way from phase one to phase two.
* `CanonicalForm.Makes` and `Problem.Makes` are runs of both phases, with what comes of them.
* `Problem.exists_makes` finds the exchanges of a run that ends, and `Problem.Makes.makes_iff` says
  that there are no others.
-/

namespace LinearOpt

variable {F : Type} [Scalar F]

namespace Tableau

/-! ## Iterations -/

/-- One iteration leads from `t` to `next`: column `j` enters in row `r`. -/
structure Iterates (t : Tableau F) (j : Nat) (cost : F) (r : Nat) (column : List F)
    (next : Tableau F) : Prop where
  nextStep_eq : t.nextStep = .ok (.pivot j cost r column)
  pivot_eq : t.pivot j r column = .ok next

/-- Iterations lead from the first tableau to the last one, with these columns and rows. -/
inductive Iterations : Tableau F → List (Nat × Nat) → Tableau F → Prop where
  | refl (t : Tableau F) : Iterations t [] t
  | step {t next last : Tableau F} {j r : Nat} {cost : F} {column : List F}
      {rest : List (Nat × Nat)} (h : t.Iterates j cost r column next)
      (hrest : Iterations next rest last) : Iterations t ((j, r) :: rest) last

/-- No iteration follows, and this is why. -/
inductive Ends (t : Tableau F) : Termination → Prop where
  | optimal (h : t.nextStep = .ok .optimal) : Ends t .optimal
  | unbounded {j : Nat} {cost : F} (h : t.nextStep = .ok (.unbounded j cost)) : Ends t .unbounded

theorem Iterates.unique {t next next' : Tableau F} {j j' r r' : ℕ} {cost cost' : F}
    {column column' : List F} (h : t.Iterates j cost r column next)
    (h' : t.Iterates j' cost' r' column' next') : (j, r) = (j', r') ∧ next = next' := by
  have hstep := h.nextStep_eq.symm.trans h'.nextStep_eq
  cases hstep
  exact ⟨rfl, Except.ok.inj (h.pivot_eq.symm.trans h'.pivot_eq)⟩

theorem Ends.not_iterates {t next : Tableau F} {termination : Termination} {j r : ℕ} {cost : F}
    {column : List F} (hend : t.Ends termination) (h : t.Iterates j cost r column next) :
    False := by
  cases hend with
  | optimal hstep => cases hstep.symm.trans h.nextStep_eq
  | unbounded hstep => cases hstep.symm.trans h.nextStep_eq

theorem Ends.unique {t : Tableau F} {termination termination' : Termination}
    (h : t.Ends termination) (h' : t.Ends termination') : termination = termination' := by
  cases h with
  | optimal hstep =>
    cases h' with
    | optimal _ => rfl
    | unbounded hstep' => cases hstep.symm.trans hstep'
  | unbounded hstep =>
    cases h' with
    | optimal hstep' => cases hstep.symm.trans hstep'
    | unbounded _ => rfl

theorem Iterations.unique {t last last' : Tableau F} {es es' : List (ℕ × ℕ)}
    {termination termination' : Termination} (h : Iterations t es last)
    (hend : last.Ends termination) (h' : Iterations t es' last') (hend' : last'.Ends termination') :
    es = es' ∧ last = last' := by
  induction h generalizing es' with
  | refl t =>
    cases h' with
    | refl _ => exact ⟨rfl, rfl⟩
    | step hnext _ => exact (hend.not_iterates hnext).elim
  | step hnext _ ih =>
    cases h' with
    | refl _ => exact (hend'.not_iterates hnext).elim
    | step hnext' hrest' =>
      obtain ⟨hfirst, rfl⟩ := hnext.unique hnext'
      obtain ⟨rfl, rfl⟩ := ih hend hrest'
      rw [hfirst]
      exact ⟨rfl, rfl⟩

/-- The exchanges that `iterate` makes. -/
theorem exists_iterations {verbosity : Verbosity} {fuel pivots : ℕ} {t last : Tableau F}
    {termination : Termination}
    (h : (t.iterate verbosity fuel pivots).outcome = .ok (termination, last)) :
    ∃ es, Iterations t es last ∧ last.Ends termination := by
  induction fuel generalizing pivots t with
  | zero => cases h
  | succ fuel ih =>
    unfold iterate at h
    simp only [Logged.outcome_bind] at h
    obtain ⟨-, -, h⟩ := bind_eq_ok.mp h
    obtain ⟨step, hstep, h⟩ := bind_eq_ok.mp h
    have hstep := liftM_eq_ok.mp hstep
    cases step with
    | optimal =>
      obtain ⟨_, -, h⟩ := bind_eq_ok.mp ((Logged.outcome_bind _ _).symm.trans h)
      cases h
      exact ⟨[], .refl _, .optimal hstep⟩
    | unbounded j cost =>
      obtain ⟨_, -, h⟩ := bind_eq_ok.mp ((Logged.outcome_bind _ _).symm.trans h)
      cases h
      exact ⟨[], .refl _, .unbounded hstep⟩
    | pivot j cost r column =>
      obtain ⟨_, -, h⟩ := bind_eq_ok.mp ((Logged.outcome_bind _ _).symm.trans h)
      obtain ⟨next, hnext, h⟩ := bind_eq_ok.mp ((Logged.outcome_bind _ _).symm.trans h)
      obtain ⟨es, hes, hend⟩ := ih h
      exact ⟨(j, r) :: es, .step ⟨hstep, liftM_eq_ok.mp hnext⟩ hes, hend⟩

/-! ## Between the phases -/

/-- Artificial variables are driven out of the given rows, with these columns and rows. -/
inductive DrivesOut : Tableau F → List Nat → List (Nat × Nat) → Tableau F → Prop where
  | nil (t : Tableau F) : DrivesOut t [] [] t
  | exchange {t next last : Tableau F} {r j : Nat} {column : List F} {rs : List Nat}
      {rest : List (Nat × Nat)}
      (hj : t.firstNonzero r (List.range t.realColumnCount) = .ok (some j))
      (hcolumn : t.generateColumn j = .ok column) (hpivot : t.pivot j r column = .ok next)
      (hrest : DrivesOut next rs rest last) : DrivesOut t (r :: rs) ((j, r) :: rest) last
  | keep {t last : Tableau F} {r : Nat} {rs : List Nat} {rest : List (Nat × Nat)}
      (hj : t.firstNonzero r (List.range t.realColumnCount) = .ok none)
      (hrest : DrivesOut t rs rest last) : DrivesOut t (r :: rs) rest last

theorem DrivesOut.unique {t last last' : Tableau F} {rs : List ℕ} {es es' : List (ℕ × ℕ)}
    (h : DrivesOut t rs es last) (h' : DrivesOut t rs es' last') : es = es' ∧ last = last' := by
  induction h generalizing es' with
  | nil t =>
    cases h'
    exact ⟨rfl, rfl⟩
  | exchange hj hcolumn hpivot _ ih =>
    cases h' with
    | exchange hj' hcolumn' hpivot' hrest' =>
      cases hj.symm.trans hj'
      cases hcolumn.symm.trans hcolumn'
      cases hpivot.symm.trans hpivot'
      obtain ⟨rfl, rfl⟩ := ih hrest'
      exact ⟨rfl, rfl⟩
    | keep hj' _ => cases hj.symm.trans hj'
  | keep hj _ ih =>
    cases h' with
    | exchange hj' _ _ _ => cases hj.symm.trans hj'
    | keep _ hrest' => exact ih hrest'

/-- The exchanges that `driveOut` makes. -/
theorem exists_drivesOut {rs redundant : List ℕ} {t last : Tableau F}
    (h : t.driveOut rs = .ok (last, redundant)) : ∃ es, DrivesOut t rs es last := by
  induction rs generalizing t redundant with
  | nil =>
    cases h
    exact ⟨[], .nil _⟩
  | cons r rs ih =>
    unfold driveOut at h
    obtain ⟨found, hj, h⟩ := bind_eq_ok.mp h
    cases found with
    | some j =>
      obtain ⟨column, hcolumn, h⟩ := bind_eq_ok.mp h
      obtain ⟨next, hpivot, h⟩ := bind_eq_ok.mp h
      obtain ⟨es, hes⟩ := ih h
      exact ⟨(j, r) :: es, .exchange hj hcolumn hpivot hes⟩
    | none =>
      obtain ⟨rest, hrest, h⟩ := bind_eq_ok.mp h
      cases h
      obtain ⟨es, hes⟩ := ih hrest
      exact ⟨es, .keep hj hes⟩

/-- What phase one ended with, in terms of its loop: it was unbounded, it left a positive
artificial variable, or the artificial variables were driven out afterwards. -/
theorem phaseOne_outcome_cases {verbosity : Verbosity} {fuel : ℕ} {t last : Tableau F}
    {feasibility : Feasibility} (h : (t.phaseOne verbosity fuel).outcome = .ok (feasibility, last)) :
    (feasibility = .failed ∧ (t.iterate verbosity fuel 0).outcome = .ok (.unbounded, last)) ∨
      (feasibility = .infeasible ∧ (t.iterate verbosity fuel 0).outcome = .ok (.optimal, last) ∧
        last.hasPositiveArtificial = true) ∨
      ∃ reached redundant, feasibility = .feasible redundant ∧
        (t.iterate verbosity fuel 0).outcome = .ok (.optimal, reached) ∧
        reached.hasPositiveArtificial = false ∧
        reached.driveOut reached.artificialRows = .ok (last, redundant) := by
  unfold phaseOne at h
  rw [Logged.outcome_bind] at h
  obtain ⟨⟨termination, reached⟩, hrun, h⟩ := bind_eq_ok.mp h
  cases termination with
  | unbounded =>
    cases h
    exact Or.inl ⟨rfl, hrun⟩
  | optimal =>
    dsimp only at h
    cases hpositive : reached.hasPositiveArtificial with
    | true =>
      rw [if_pos hpositive] at h
      cases h
      exact Or.inr (Or.inl ⟨rfl, hrun, hpositive⟩)
    | false =>
      rw [if_neg (by simp [hpositive]), Logged.outcome_bind] at h
      obtain ⟨⟨driven, redundant⟩, hdriven, h⟩ := bind_eq_ok.mp h
      dsimp only at h
      rw [Logged.outcome_bind] at h
      obtain ⟨_, -, h⟩ := bind_eq_ok.mp h
      cases h
      exact Or.inr (Or.inr ⟨reached, redundant, rfl, hrun, hpositive, liftM_eq_ok.mp hdriven⟩)

end Tableau

/-! ## Both phases -/

namespace CanonicalForm

/-- These exchanges are the first phase, and it ends at this tableau. -/
inductive EndsPhaseOne (c : CanonicalForm F) :
    List (Nat × Nat) → Tableau F → Termination → Prop where
  | intro {first last : Tableau F} {es : List (Nat × Nat)} {termination : Termination}
      (hfirst : c.tableau = .ok first) (hone : first.Iterations es last)
      (hend : last.Ends termination) : EndsPhaseOne c es last termination

/-- These exchanges find a feasible basis and lead to the start of the second phase. -/
inductive ReachesPhaseTwo (c : CanonicalForm F) : List (Nat × Nat) → Tableau F → Prop where
  | intro {last driven second : Tableau F} {es es' : List (Nat × Nat)}
      (hone : c.EndsPhaseOne es last .optimal) (hzero : last.hasPositiveArtificial = false)
      (hdriven : last.DrivesOut last.artificialRows es' driven)
      (hsecond : driven.startPhaseTwo = .ok second) : ReachesPhaseTwo c (es ++ es') second

/-- A run of both phases makes these exchanges, and this comes of it. -/
inductive Makes (c : CanonicalForm F) : List (Nat × Nat) → Outcome (List F) → Prop where
  | failed {last : Tableau F} {es : List (Nat × Nat)} (hone : c.EndsPhaseOne es last .unbounded) :
      Makes c es .error
  | infeasible {last : Tableau F} {es : List (Nat × Nat)} (hone : c.EndsPhaseOne es last .optimal)
      (hpositive : last.hasPositiveArtificial = true) : Makes c es .infeasible
  | optimum {second last : Tableau F} {es es' : List (Nat × Nat)}
      (hsecond : c.ReachesPhaseTwo es second) (htwo : second.Iterations es' last)
      (hend : last.Ends .optimal) : Makes c (es ++ es') (.optimum last.basicSolution)
  | unbounded {second last : Tableau F} {es es' : List (Nat × Nat)}
      (hsecond : c.ReachesPhaseTwo es second) (htwo : second.Iterations es' last)
      (hend : last.Ends .unbounded) : Makes c (es ++ es') .unbounded

variable {c : CanonicalForm F}

/-! ## Every run that ends makes exchanges -/

theorem phaseOne_makes {verbosity : Verbosity} {fuel : ℕ} {first last : Tableau F}
    {feasibility : Tableau.Feasibility} (hfirst : c.tableau = .ok first)
    (h : (first.phaseOne verbosity fuel).outcome = .ok (feasibility, last)) :
    (feasibility = .failed ∧ ∃ es, c.Makes es .error) ∨
      (feasibility = .infeasible ∧ ∃ es, c.Makes es .infeasible) ∨
      ∃ redundant, feasibility = .feasible redundant ∧
        ∀ second, last.startPhaseTwo = .ok second → ∃ es, c.ReachesPhaseTwo es second := by
  rcases Tableau.phaseOne_outcome_cases h with
    ⟨rfl, hrun⟩ | ⟨rfl, hrun, hpositive⟩ | ⟨reached, redundant, rfl, hrun, hzero, hdriven⟩
  · obtain ⟨es, hone, hend⟩ := Tableau.exists_iterations hrun
    exact Or.inl ⟨rfl, es, .failed (.intro hfirst hone hend)⟩
  · obtain ⟨es, hone, hend⟩ := Tableau.exists_iterations hrun
    exact Or.inr (Or.inl ⟨rfl, es, .infeasible (.intro hfirst hone hend) hpositive⟩)
  · obtain ⟨es, hone, hend⟩ := Tableau.exists_iterations hrun
    obtain ⟨es', hes'⟩ := Tableau.exists_drivesOut hdriven
    exact Or.inr (Or.inr ⟨redundant, rfl, fun second hsecond =>
      ⟨es ++ es', .intro (.intro hfirst hone hend) hzero hes' hsecond⟩⟩)

theorem phaseTwo_makes {verbosity : Verbosity} {fuel : ℕ} {second last : Tableau F}
    {outcome : Outcome (List F)} {es : List (ℕ × ℕ)} (hsecond : c.ReachesPhaseTwo es second)
    (h : (second.phaseTwo verbosity fuel).outcome = .ok (outcome, last)) :
    ∃ es, c.Makes es outcome := by
  unfold Tableau.phaseTwo at h
  rw [Logged.outcome_bind] at h
  obtain ⟨⟨termination, reached⟩, hrun, h⟩ := bind_eq_ok.mp h
  obtain ⟨es', hes', hend⟩ := Tableau.exists_iterations hrun
  cases termination with
  | optimal =>
    cases h
    exact ⟨es ++ es', .optimum hsecond hes' hend⟩
  | unbounded =>
    cases h
    exact ⟨es ++ es', .unbounded hsecond hes' hend⟩

theorem exists_makes {verbosity : Verbosity} {fuel : ℕ} {outcome : Outcome (List F)}
    (h : (c.solve verbosity fuel).outcome = .ok outcome) : ∃ es, c.Makes es outcome := by
  unfold solve at h
  rw [Logged.outcome_bind] at h
  obtain ⟨first, hfirst, h⟩ := bind_eq_ok.mp h
  rw [Logged.outcome_bind] at h
  obtain ⟨⟨feasibility, last⟩, hone, h⟩ := bind_eq_ok.mp h
  rcases phaseOne_makes (liftM_eq_ok.mp hfirst) hone with
    ⟨rfl, hes⟩ | ⟨rfl, hes⟩ | ⟨redundant, rfl, hreaches⟩
  · dsimp only at h
    split at h
    · cases h
      exact hes
    · cases h
      exact hes
  · cases h
    exact hes
  · dsimp only at h
    rw [Logged.outcome_bind] at h
    obtain ⟨_, -, h⟩ := bind_eq_ok.mp h
    rw [Logged.outcome_bind] at h
    obtain ⟨second, hsecond, h⟩ := bind_eq_ok.mp h
    obtain ⟨es, hes⟩ := hreaches second (liftM_eq_ok.mp hsecond)
    rw [Logged.outcome_bind] at h
    obtain ⟨⟨answer, final⟩, htwo, h⟩ := bind_eq_ok.mp h
    cases h
    exact phaseTwo_makes hes htwo

/-! ## No run makes others -/

theorem EndsPhaseOne.unique {es es' : List (ℕ × ℕ)} {last last' : Tableau F}
    {termination termination' : Termination} (h : c.EndsPhaseOne es last termination)
    (h' : c.EndsPhaseOne es' last' termination') :
    es = es' ∧ last = last' ∧ termination = termination' := by
  rcases h with ⟨hfirst, hone, hend⟩
  rcases h' with ⟨hfirst', hone', hend'⟩
  cases hfirst.symm.trans hfirst'
  obtain ⟨rfl, rfl⟩ := hone.unique hend hone' hend'
  exact ⟨rfl, rfl, hend.unique hend'⟩

theorem ReachesPhaseTwo.unique {es es' : List (ℕ × ℕ)} {second second' : Tableau F}
    (h : c.ReachesPhaseTwo es second) (h' : c.ReachesPhaseTwo es' second') :
    es = es' ∧ second = second' := by
  rcases h with ⟨hone, -, hdriven, hsecond⟩
  rcases h' with ⟨hone', -, hdriven', hsecond'⟩
  obtain ⟨rfl, rfl, -⟩ := hone.unique hone'
  obtain ⟨rfl, rfl⟩ := hdriven.unique hdriven'
  exact ⟨rfl, Except.ok.inj (hsecond.symm.trans hsecond')⟩

/-- A run that reaches the second phase does not end in the first one. -/
theorem ReachesPhaseTwo.not_makes {es es' : List (ℕ × ℕ)} {second : Tableau F}
    {outcome : Outcome (List F)} (h : c.ReachesPhaseTwo es second) (h' : c.Makes es' outcome) :
    outcome ≠ .error ∧ outcome ≠ .infeasible := by
  rcases h with ⟨hone, hzero, -, -⟩
  cases h' with
  | failed hone' => cases (hone.unique hone').2.2
  | infeasible hone' hpositive =>
    obtain ⟨-, rfl, -⟩ := hone.unique hone'
    cases hzero.symm.trans hpositive
  | optimum _ _ _ => exact ⟨nofun, nofun⟩
  | unbounded _ _ _ => exact ⟨nofun, nofun⟩

theorem Makes.unique {es es' : List (ℕ × ℕ)} {outcome outcome' : Outcome (List F)}
    (h : c.Makes es outcome) (h' : c.Makes es' outcome') : es = es' ∧ outcome = outcome' := by
  cases h with
  | failed hone =>
    cases h' with
    | failed hone' => exact ⟨(hone.unique hone').1, rfl⟩
    | infeasible hone' _ => cases (hone.unique hone').2.2
    | optimum hsecond' _ _ => exact absurd rfl (hsecond'.not_makes (.failed hone)).1
    | unbounded hsecond' _ _ => exact absurd rfl (hsecond'.not_makes (.failed hone)).1
  | infeasible hone hpositive =>
    cases h' with
    | failed hone' => cases (hone.unique hone').2.2
    | infeasible hone' _ => exact ⟨(hone.unique hone').1, rfl⟩
    | optimum hsecond' _ _ => exact absurd rfl (hsecond'.not_makes (.infeasible hone hpositive)).2
    | unbounded hsecond' _ _ => exact absurd rfl (hsecond'.not_makes (.infeasible hone hpositive)).2
  | optimum hsecond htwo hend =>
    cases h' with
    | failed hone' => exact absurd rfl (hsecond.not_makes (.failed hone')).1
    | infeasible hone' hpositive =>
      exact absurd rfl (hsecond.not_makes (.infeasible hone' hpositive)).2
    | optimum hsecond' htwo' hend' =>
      obtain ⟨rfl, rfl⟩ := hsecond.unique hsecond'
      obtain ⟨rfl, rfl⟩ := htwo.unique hend htwo' hend'
      exact ⟨rfl, rfl⟩
    | unbounded hsecond' htwo' hend' =>
      obtain ⟨rfl, rfl⟩ := hsecond.unique hsecond'
      obtain ⟨-, rfl⟩ := htwo.unique hend htwo' hend'
      cases hend.unique hend'
  | unbounded hsecond htwo hend =>
    cases h' with
    | failed hone' => exact absurd rfl (hsecond.not_makes (.failed hone')).1
    | infeasible hone' hpositive =>
      exact absurd rfl (hsecond.not_makes (.infeasible hone' hpositive)).2
    | optimum hsecond' htwo' hend' =>
      obtain ⟨rfl, rfl⟩ := hsecond.unique hsecond'
      obtain ⟨-, rfl⟩ := htwo.unique hend htwo' hend'
      cases hend.unique hend'
    | unbounded hsecond' htwo' hend' =>
      obtain ⟨rfl, rfl⟩ := hsecond.unique hsecond'
      obtain ⟨rfl, -⟩ := htwo.unique hend htwo' hend'
      exact ⟨rfl, rfl⟩

end CanonicalForm

/-! ## The whole method -/

namespace Problem

/-- The method makes these exchanges on the canonical form of `p`, and returns this outcome. -/
inductive Makes (p : Problem F) : List (Nat × Nat) → Outcome (List F) → Prop where
  | intro {c : CanonicalForm F} {es : List (Nat × Nat)} {canonical outcome : Outcome (List F)}
      (hcanonical : p.canonicalForm.outcome = .ok c) (hmakes : c.Makes es canonical)
      (hback : canonical.mapM (fun x => c.reconstruct (.optimum x)) = .ok outcome) :
      Makes p es outcome

variable {p : Problem F} {configuration : Configuration} {fuel : ℕ} {outcome : Outcome (List F)}

theorem exists_makes (hmethod : configuration.method = .primalSimplex)
    (hpresolve : configuration.presolve = false)
    (h : (twoPhase fuel p configuration).outcome = .ok outcome) : ∃ es, p.Makes es outcome := by
  rw [twoPhase_outcome hmethod hpresolve] at h
  obtain ⟨c, hcanonical, h⟩ := bind_eq_ok.mp h
  obtain ⟨canonical, hsolve, hback⟩ := bind_eq_ok.mp h
  obtain ⟨es, hes⟩ := CanonicalForm.exists_makes hsolve
  exact ⟨es, .intro hcanonical hes hback⟩

theorem Makes.unique {es es' : List (ℕ × ℕ)} {outcome' : Outcome (List F)}
    (h : p.Makes es outcome) (h' : p.Makes es' outcome') : es = es' ∧ outcome = outcome' := by
  rcases h with ⟨hcanonical, hmakes, hback⟩
  rcases h' with ⟨hcanonical', hmakes', hback'⟩
  cases hcanonical.symm.trans hcanonical'
  obtain ⟨rfl, rfl⟩ := hmakes.unique hmakes'
  exact ⟨rfl, Except.ok.inj (hback.symm.trans hback')⟩

/-- There is one sequence of exchanges, and it has one outcome. -/
theorem Makes.makes_iff {es es' : List (ℕ × ℕ)} {outcome' : Outcome (List F)}
    (h : p.Makes es outcome) : p.Makes es' outcome' ↔ es' = es ∧ outcome' = outcome := by
  constructor
  · exact fun h' => h'.unique h
  · rintro ⟨rfl, rfl⟩
    exact h

end Problem

end LinearOpt
